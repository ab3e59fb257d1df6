import Ascon.Proofs.Aead.Padding
import Ascon.Proofs.Aead.RoundTrip
import Mathlib.Data.List.GetD

/-! # The ciphertext is a causal stream

  A byte of the ciphertext is the byte of the message at the same place, with a
  byte of the state added to it. That state is the one in front of the block in
  which the byte stands, and it is determined by the blocks before.

  - A message can be encrypted in two parts, if the first one ends with a block:
    the second part goes on from the state that the first one leaves behind.
  - Encrypting full blocks leaves behind what taking them in does. So the state
    in front of a block is known without its ciphertext.
  - How long the message is, and whether a byte stands in a full block or in the
    rest, makes no difference. So the ciphertexts of two messages differ by what
    the messages differ by, up to the end of the first block that is not the same.
-/

namespace Ascon

namespace Aead

variable {p : Parameters}

/-! ### Messages in two parts -/

/-- Data with full blocks in front of them are worked through behind these blocks. -/
theorem feed_append {k : Nat} {f : Bytes → UncheckedDuplex k → Id (Bytes × UncheckedDuplex k)}
    (hp : p.WellFormed) {front : Bytes} (h : p.rate ∣ front.length) (data : Bytes)
    (d : UncheckedDuplex k) :
    feed p f (front ++ data) d =
      let first := feedFull p f (Blocks.of p.rate front).full d
      let second := feed p f data first.2
      (first.1 ++ second.1, second.2) := by
  simp only [feed_eq, Blocks.of_append_of_dvd hp.rate_pos h, feedFull_append, List.append_assoc]

/-- The state behind the full blocks of what has been taken in. -/
def stateBehind (p : Parameters) (s : State) (taken : Bytes) : State :=
  s.absorbBlocks p.rounds (Blocks.of p.rate taken).full

/-- Encrypting full blocks leaves behind what taking them in does. -/
theorem feedFull_encrypt_snd (hp : p.WellFormed) (data : Bytes) (d : UncheckedDuplex p.keySize) :
    (feedFull p (KeyedDuplex.encryptBytes · 0) (Blocks.of p.rate data).full d).2 =
      { d with state := stateBehind p d.state data } := by
  have hlen : ∀ block ∈ (Blocks.of p.rate data).full, block.length = p.rate :=
    Blocks.length_of_mem
  rw [feedFull_snd_congr encryptBytes_snd, feedFull_absorb hp hlen]
  rfl

theorem length_feedFull_encrypt (hp : p.WellFormed) {front : Bytes} (h : p.rate ∣ front.length)
    (d : UncheckedDuplex p.keySize) :
    (feedFull p (KeyedDuplex.encryptBytes · 0) (Blocks.of p.rate front).full d).1.length =
      front.length := by
  have hlen : ∀ block ∈ (Blocks.of p.rate front).full, block.length = p.rate :=
    Blocks.length_of_mem
  obtain ⟨outs, next, hcount, houts, hfed, _⟩ :=
    feedFull_takesBack decrypt_takesBack_encrypt hp hlen d
  rw [hfed]
  show outs.flatten.length = front.length
  rw [Blocks.length_flatten houts, hcount, Blocks.length_full, Nat.div_mul_cancel h]

/-! ### Bytes of the ciphertext -/

/-- A byte that is encrypted together with others at the start of a state is combined with the byte
    of the state there. What stands behind them, on either side, makes no difference. -/
theorem getD_slice_addFrom_append (s : State) {head : Bytes} (later more : Bytes) {i : Nat}
    (hi : i < head.length) (hfits : 0 + head.length ≤ 40) :
    (((s.addFrom 0 head).slice 0 head.length).toList ++ later).getD i 0 =
      (head ++ more).getD i 0 ^^^ s.byte i := by
  have hshown : (s.slice 0 head.length).toList.length = head.length := Vector.length_toList
  have hsum : i < (xorBytes (s.slice 0 head.length).toList head).length := by
    rw [State.length_xorBytes_slice]
    exact hi
  rw [State.slice_addFrom _ hfits, List.getD_append _ _ _ _ hsum, List.getD_append _ _ _ _ hi,
    getD_xorBytes hshown, State.getD_slice, if_pos hi, Nat.zero_add, UInt8.xor_comm]

/-- In front of the first permutation, a byte of the ciphertext is the byte of the message with the
    byte of the state added, whether it stands in a full block or in the rest. -/
theorem getD_feed_encrypt_of_lt (hp : p.WellFormed) {data : Bytes} (d : UncheckedDuplex p.keySize)
    {i : Nat} (hi : i < data.length) (hrate : i < p.rate) :
    (feed p (KeyedDuplex.encryptBytes · 0) data d).1.getD i 0 =
      data.getD i 0 ^^^ d.state.byte i := by
  have hle : p.rate ≤ 40 := hp.rate_le
  have hjoin := Blocks.of_join p.rate data
  have hrest := Blocks.length_rest_lt hp.rate_pos data
  have hlen : ∀ block ∈ (Blocks.of p.rate data).full, block.length = p.rate :=
    Blocks.length_of_mem
  simp only [feed_eq]
  cases hfull : (Blocks.of p.rate data).full with
  | nil =>
    rw [hfull, List.flatten_nil, List.nil_append] at hjoin
    rw [hjoin] at hrest ⊢
    have h := getD_slice_addFrom_append d.state [] [] hi (by omega)
    rwa [List.append_nil, List.append_nil] at h
  | cons block blocks =>
    have hblock : block.length = p.rate := hlen block (hfull ▸ List.mem_cons_self)
    have hdata : data.getD i 0 =
        (block ++ (blocks.flatten ++ (Blocks.of p.rate data).rest)).getD i 0 := by
      rw [← List.append_assoc, ← List.flatten_cons, ← hfull, hjoin]
    simp only [feedFull_cons, List.append_assoc]
    rw [hdata]
    exact getD_slice_addFrom_append d.state _ _ (by omega) (by omega)

/-- Further on, it is the state behind the full blocks in front that is added. -/
theorem getD_feed_encrypt_behind (hp : p.WellFormed) {front data : Bytes}
    (h : p.rate ∣ front.length) (d : UncheckedDuplex p.keySize) {i : Nat} (hi : i < data.length)
    (hrate : i < p.rate) :
    (feed p (KeyedDuplex.encryptBytes · 0) (front ++ data) d).1.getD (front.length + i) 0 =
      data.getD i 0 ^^^ (stateBehind p d.state front).byte i := by
  have hsent := length_feedFull_encrypt hp h d
  rw [feed_append hp h]
  simp only [feedFull_encrypt_snd hp]
  rw [List.getD_append_right _ _ _ _ (by omega), hsent, Nat.add_sub_cancel_left,
    getD_feed_encrypt_of_lt hp _ hi hrate]

/-- A byte of the ciphertext is the byte of the message with a byte of the state added to it that
    depends on nothing but the full blocks before. -/
theorem getD_feed_encrypt (hp : p.WellFormed) {data : Bytes} (d : UncheckedDuplex p.keySize)
    {i : Nat} (hi : i < data.length) :
    (feed p (KeyedDuplex.encryptBytes · 0) data d).1.getD i 0 = data.getD i 0 ^^^
      (stateBehind p d.state (data.take (p.rate * (i / p.rate)))).byte (i % p.rate) := by
  have hdiv := Nat.div_add_mod i p.rate
  have hmod := Nat.mod_lt i hp.rate_pos
  have hfront : (data.take (p.rate * (i / p.rate))).length = p.rate * (i / p.rate) := by
    rw [List.length_take]
    omega
  have hdvd : p.rate ∣ (data.take (p.rate * (i / p.rate))).length := by
    rw [hfront]
    exact Nat.dvd_mul_right ..
  have hinside : i % p.rate < (data.drop (p.rate * (i / p.rate))).length := by
    rw [List.length_drop]
    omega
  have hplace : (data.drop (p.rate * (i / p.rate))).getD (i % p.rate) 0 = data.getD i 0 := by
    rw [List.getD_eq_getElem?_getD, List.getD_eq_getElem?_getD, List.getElem?_drop, hdiv]
  -- the message is cut in front of the block in which the byte stands
  have h := getD_feed_encrypt_behind hp hdvd d hinside hmod
  rwa [List.take_append_drop, hfront, hdiv, hplace] at h

/-- The bytes that are added to a message, each determined by the full blocks in front of it. -/
def addBehind (p : Parameters) (s : State) (data : Bytes) : Bytes :=
  data.mapIdx fun i b =>
    b ^^^ (stateBehind p s (data.take (p.rate * (i / p.rate)))).byte (i % p.rate)

theorem feed_encrypt_fst (hp : p.WellFormed) (data : Bytes) (d : UncheckedDuplex p.keySize) :
    (feed p (KeyedDuplex.encryptBytes · 0) data d).1 = addBehind p d.state data := by
  obtain ⟨out, next, hlen, hfed, _⟩ := feed_takesBack decrypt_takesBack_encrypt hp data d
  have hbyte := fun i (hi : i < data.length) => getD_feed_encrypt hp d hi
  rw [hfed] at hbyte ⊢
  apply List.ext_getElem
  · rw [addBehind, List.length_mapIdx]
    exact hlen
  · intro i hi hi'
    rw [addBehind, List.length_mapIdx] at hi'
    have h := hbyte i hi'
    rw [List.getD_eq_getElem _ _ hi, List.getD_eq_getElem _ _ hi'] at h
    rw [h]
    simp only [addBehind, List.getElem_mapIdx]

/-- Where two messages have the same full blocks in front, what is added to them is the same. -/
theorem getD_addBehind_xor (s : State) {m m' : Bytes} {i : Nat} (hm : i < m.length)
    (hm' : i < m'.length)
    (h : m.take (p.rate * (i / p.rate)) = m'.take (p.rate * (i / p.rate))) :
    (addBehind p s m).getD i 0 ^^^ (addBehind p s m').getD i 0 = m.getD i 0 ^^^ m'.getD i 0 := by
  have hlen : i < (addBehind p s m).length := by rwa [addBehind, List.length_mapIdx]
  have hlen' : i < (addBehind p s m').length := by rwa [addBehind, List.length_mapIdx]
  rw [List.getD_eq_getElem _ _ hlen, List.getD_eq_getElem _ _ hlen', List.getD_eq_getElem _ _ hm,
    List.getD_eq_getElem _ _ hm']
  simp only [addBehind, List.getElem_mapIdx, h]
  generalize (stateBehind p s _).byte _ = k
  calc m[i] ^^^ k ^^^ (m'[i] ^^^ k) = m[i] ^^^ (m'[i] ^^^ k ^^^ k) := by ac_rfl
    _ = m[i] ^^^ m'[i] := by rw [XorGroup.cancel_right]

/-- Cutting a message off cuts off what is made of it. -/
theorem addBehind_take (s : State) (data : Bytes) (k : Nat) :
    addBehind p s (data.take k) = (addBehind p s data).take k := by
  apply List.ext_getElem
  · simp only [addBehind, List.length_mapIdx, List.length_take]
  · intro i hi _
    rw [addBehind, List.length_mapIdx, List.length_take] at hi
    -- the blocks in front of a byte are in front of the cut
    have hfront : min (p.rate * (i / p.rate)) k = p.rate * (i / p.rate) := by
      have hle := Nat.mul_div_le i p.rate
      omega
    simp only [addBehind, List.getElem_mapIdx, List.getElem_take, List.take_take, hfront]

/-! ### The cipher -/

/-- The ciphertext is a causal stream, and does not depend on the length of the message. At a place
    that is inside two messages which have the same full blocks in front of it, the ciphertexts
    differ by what the messages differ by. So the ciphertext of a message that is cut off anywhere
    is the ciphertext of the message, cut off at the same place. -/
theorem encrypt_causal {v : Variant} (c : Aead v) (nonce : Nonce) (ad : Bytes) :
    ∃ sent : Bytes → Bytes × Tag,
      (∀ data, c.encrypt nonce ad data = .ok (sent data) ∧
        (sent data).1.length = data.length) ∧
      (∀ (m m' : Bytes) (i : Nat), i < m.length → i < m'.length →
        m.take (v.parameters.rate * (i / v.parameters.rate)) =
          m'.take (v.parameters.rate * (i / v.parameters.rate)) →
        (sent m).1.getD i 0 ^^^ (sent m').1.getD i 0 = m.getD i 0 ^^^ m'.getD i 0) ∧
      ∀ (data : Bytes) (k : Nat), (sent (data.take k)).1 = (sent data).1.take k := by
  let sent (data : Bytes) : Bytes × Tag :=
    Id.run (encryptWith v.parameters nonce ad data (PlainDuplex.new c.key).unchecked)
  have hsent : ∀ data, (sent data).1 =
      addBehind v.parameters (c.readied nonce ad).state data :=
    fun data => feed_encrypt_fst v.wellFormed data (c.readied nonce ad)
  refine ⟨sent, fun data => ⟨encrypt_unchecked c nonce ad data, ?_⟩, ?_, ?_⟩
  · rw [hsent, addBehind, List.length_mapIdx]
  · intro m m' i hm hm' hsame
    rw [hsent, hsent]
    exact getD_addBehind_xor _ hm hm' hsame
  · intro data k
    rw [hsent, hsent]
    exact addBehind_take _ data k

/-- Two messages of different lengths that have their first block in common, looked at inside the
    second one. -/
theorem encrypt_causal_second_block :
    ∃ sent : Bytes → Bytes × Tag,
      (∀ data, (⟨Vector.replicate _ 1⟩ : Aead .ascon128).encrypt Nonce.zero [7] data =
        .ok (sent data)) ∧
      9 < [1, 2, 3, 4, 5, 6, 7, 8, 9, 10].length ∧
      9 < ([1, 2, 3, 4, 5, 6, 7, 8, 0, 11, 12] : Bytes).length ∧
      ([1, 2, 3, 4, 5, 6, 7, 8, 9, 10] : Bytes).take (8 * (9 / 8)) =
        [1, 2, 3, 4, 5, 6, 7, 8, 0, 11, 12].take (8 * (9 / 8)) ∧
      (sent [1, 2, 3, 4, 5, 6, 7, 8, 9, 10]).1.getD 9 0 ^^^
        (sent [1, 2, 3, 4, 5, 6, 7, 8, 0, 11, 12]).1.getD 9 0 = 1 := by
  obtain ⟨sent, hsent, hcausal, _⟩ :=
    encrypt_causal (⟨Vector.replicate _ 1⟩ : Aead .ascon128) Nonce.zero [7]
  refine ⟨sent, fun data => (hsent data).1, by decide, by decide, by decide, ?_⟩
  exact hcausal _ _ 9 (by decide) (by decide) (by decide)

end Aead

end Ascon
