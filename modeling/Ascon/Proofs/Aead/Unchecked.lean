import Ascon.Proofs.Aead.Simulation
import Ascon.Proofs.State.Window

/-! # Modes without checks

  A mode never asks a duplex for anything that is refused. So it computes what
  it would compute over a duplex that checks nothing, where every operation has
  a value, and where the values can be reasoned about as such.

  The key of a duplex is the same behind every operation. This comes along with
  the comparison.
-/

namespace Ascon

/-- A plain state and a key of `k` bytes, whose operations are not checked. -/
structure UncheckedDuplex (k : Nat) where
  state : State
  key : Vector UInt8 k

instance uncheckedDuplex {k : Nat} : KeyedDuplex (UncheckedDuplex k) Id where
  start iv nonce d :=
    { d with
      state := ((d.state.setFrom 0 iv).setFrom iv.length d.key.toList).setFrom nonceOffset
        nonce.toList }
  permute rounds d := { d with state := d.state.lastRounds rounds }
  addKey offset d := { d with state := d.state.addFrom offset d.key.toList }
  addKeyTail offset d := { d with state := d.state.addFrom offset (keyTail d.key) }
  addBytes data offset d := { d with state := d.state.addFrom offset data }
  encryptBytes data offset d :=
    let next := d.state.addFrom offset data
    ((next.slice offset data.length).toList, { d with state := next })
  decryptBytes data offset d :=
    (xorBytes (d.state.slice offset data.length).toList data,
      { d with state := d.state.setFrom offset data })
  extractBytes offset len d := d.state.slice offset len

namespace PlainDuplex

variable {k : Nat}

/-- The same duplex without checks. -/
def unchecked (d : PlainDuplex k) : UncheckedDuplex k := ⟨d.state, d.key⟩

/-- A duplex with a given key, and the same duplex without checks. -/
def Same (key : Vector UInt8 k) (d : PlainDuplex k) (e : UncheckedDuplex k) : Prop :=
  d.unchecked = e ∧ d.key = key

theorem same_new (key : Vector UInt8 k) : Same key (new key) (new key).unchecked :=
  ⟨rfl, rfl⟩

/-- Changing the state by an operation that is not refused keeps the key. -/
theorem agree_onState {key : Vector UInt8 k} {d : PlainDuplex k} {e : UncheckedDuplex k}
    (hd : Same key d e) {f : State → Except Fault State} {s : State} (hf : f d.state = .ok s) :
    Agree (Same key) (d.onState f) (pure { e with state := s } : Id (UncheckedDuplex k)) := by
  obtain ⟨rfl, rfl⟩ := hd
  refine ⟨{ d with state := s }, ?_, rfl, rfl⟩
  unfold onState
  rw [hf]
  rfl

/-- A duplex does what it would do without checks, as long as it is asked for what there is. -/
theorem simulation_unchecked (key : Vector UInt8 k) : Simulation k (Same key) where
  start {iv nonce d e} h hd := by
    -- initial value, key and nonce lie one behind the other
    have hiv : 0 + iv.length ≤ 40 := by
      rw [nonceOffset, stateBytes, nonceBytes] at h
      omega
    have hkey : iv.length + d.key.toList.length ≤ 40 := by
      rw [Vector.length_toList, h]
      decide
    have hnonce : nonceOffset + nonce.toList.length ≤ 40 := by
      rw [Vector.length_toList]
      decide
    obtain ⟨rfl, rfl⟩ := hd
    apply agree_onState ⟨rfl, rfl⟩
    simp only [State.overwriteBytes_of_le _ hiv, State.overwriteBytes_of_le _ hkey,
      State.overwriteBytes_of_le _ hnonce]
    rfl
  permute {rounds d e} h hd := by
    obtain ⟨rfl, rfl⟩ := hd
    exact agree_onState ⟨rfl, rfl⟩ (State.permute_of_le d.state h)
  addKey {offset d e} h hd := by
    have hkey : offset + d.key.toList.length ≤ 40 := by
      rw [Vector.length_toList]
      exact h
    obtain ⟨rfl, rfl⟩ := hd
    exact agree_onState ⟨rfl, rfl⟩ (State.addBytes_of_le d.state hkey)
  addKeyTail {offset d e} h hd := by
    have htail : offset + (keyTail d.key).length ≤ 40 := by
      rw [stateBytes] at h
      rw [length_keyTail]
      omega
    obtain ⟨rfl, rfl⟩ := hd
    exact agree_onState ⟨rfl, rfl⟩ (State.addBytes_of_le d.state htail)
  addBytes {data offset d e} h hd := by
    obtain ⟨rfl, rfl⟩ := hd
    exact agree_onState ⟨rfl, rfl⟩ (State.addBytes_of_le d.state h)
  encryptBytes {data offset d e} h hd := by
    obtain ⟨rfl, rfl⟩ := hd
    refine ⟨(_, { d with state := d.state.addFrom offset data }), ?_, rfl, rfl, rfl⟩
    show (d.state.addExtract data offset >>= _) = _
    rw [State.addExtract_of_le d.state h]
    rfl
  decryptBytes {data offset d e} h hd := by
    obtain ⟨rfl, rfl⟩ := hd
    refine ⟨(_, { d with state := d.state.setFrom offset data }), ?_, rfl, rfl, rfl⟩
    show (d.state.extractOverwrite data offset >>= _) = _
    rw [State.extractOverwrite_of_le d.state h]
    rfl
  extractBytes {offset len d e} h hd := by
    obtain ⟨rfl, rfl⟩ := hd
    exact ⟨_, State.extractBytes_of_le d.state h, rfl⟩

end PlainDuplex

namespace Aead

/-! ### The passes over a message -/

section passes

variable {k : Nat} {p : Parameters}
  {f g : Bytes → UncheckedDuplex k → Id (Bytes × UncheckedDuplex k)}

theorem feedFull_cons (block : Bytes) (blocks : List Bytes) (d : UncheckedDuplex k) :
    feedFull p f (block :: blocks) d =
      let rest := feedFull p f blocks (KeyedDuplex.permute p.rounds (f block d).2)
      ((f block d).1 ++ rest.1, rest.2) := rfl

theorem feed_eq (data : Bytes) (d : UncheckedDuplex k) :
    feed p f data d =
      let blocks := Blocks.of p.rate data
      let full := feedFull p f blocks.full d
      let last := f blocks.rest full.2
      (full.1 ++ last.1, KeyedDuplex.addBytes [padByte] blocks.rest.length last.2) := rfl

theorem feedFull_append (blocks more : List Bytes) (d : UncheckedDuplex k) :
    feedFull p f (blocks ++ more) d =
      let first := feedFull p f blocks d
      let second := feedFull p f more first.2
      (first.1 ++ second.1, second.2) := by
  induction blocks generalizing d with
  | nil => rfl
  | cons block blocks ih =>
    simp only [List.cons_append, feedFull_cons, ih, List.append_assoc]

/-- What full blocks leave behind does not depend on what is given out. -/
theorem feedFull_snd_congr (h : ∀ block d, (f block d).2 = (g block d).2) (blocks : List Bytes)
    (d : UncheckedDuplex k) : (feedFull p f blocks d).2 = (feedFull p g blocks d).2 := by
  induction blocks generalizing d with
  | nil => rfl
  | cons block blocks ih => simp only [feedFull_cons, h, ih]

theorem feed_snd_congr (h : ∀ block d, (f block d).2 = (g block d).2) (data : Bytes)
    (d : UncheckedDuplex k) : (feed p f data d).2 = (feed p g data d).2 := by
  have hfull := feedFull_snd_congr (p := p) h (Blocks.of p.rate data).full d
  simp only [feed_eq, h, hfull]

/-- Encrypting a block leaves behind what taking it in does. -/
theorem encryptBytes_snd (block : Bytes) (d : UncheckedDuplex k) :
    (KeyedDuplex.encryptBytes block 0 d : Id (Bytes × UncheckedDuplex k)).2 =
      (absorbBlock block d : Id (Bytes × UncheckedDuplex k)).2 := rfl

end passes

/-! ### The cipher -/

variable {v : Variant}

/-- Encryption succeeds, with the value that it has without checks. -/
theorem encrypt_unchecked (c : Aead v) (nonce : Nonce) (ad data : Bytes) :
    c.encrypt nonce ad data =
      .ok (encryptWith v.parameters nonce ad data (PlainDuplex.new c.key).unchecked) := by
  have hsim := PlainDuplex.simulation_unchecked c.key
  obtain ⟨out, hrun, hout⟩ :=
    agree_encryptWith hsim v.wellFormed nonce ad data (PlainDuplex.same_new c.key)
  unfold encrypt
  rw [hrun, hout]

/-- Decryption succeeds, with the value that it has without checks. -/
theorem decrypt_unchecked (c : Aead v) (nonce : Nonce) (ad data : Bytes) (tag : Tag) :
    c.decrypt nonce ad data tag =
      .ok (decryptWith v.parameters nonce ad data tag (PlainDuplex.new c.key).unchecked) := by
  have hsim := PlainDuplex.simulation_unchecked c.key
  obtain ⟨out, hrun, hout⟩ :=
    agree_decryptWith hsim v.wellFormed nonce ad data tag (PlainDuplex.same_new c.key)
  unfold decrypt
  rw [hrun, hout]

end Aead

end Ascon
