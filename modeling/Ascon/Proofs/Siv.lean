import Ascon.Proofs.Aead.RoundTrip

/-! # Misuse-resistant decryption is the inverse of encryption

  Encryption authenticates first and then encrypts; decryption decrypts first
  and then authenticates. Each runs both passes on one duplex.

  - A started duplex holds nothing of its former state, and no operation
    changes its key. So a pass does not depend on the one before it.
  - The keystream is a function of the tag and the position. The byte at
    position `i` stands in block `i / rate`, in front of which the permutation
    has been applied once more than there are blocks before it.
  - So applying the keystream of one tag twice changes nothing, and what
    authenticates a message is the plaintext on either side.
-/

namespace Ascon

/-! ### Started duplexes -/

namespace State

/-- Three runs of bytes that fill the state one behind the other leave nothing of it. -/
theorem setFrom_fill (s t : State) {a b c : Bytes} {offset : Nat}
    (hoffset : a.length + b.length = offset) (hlen : offset + c.length = 40) :
    ((s.setFrom 0 a).setFrom a.length b).setFrom offset c =
      ((t.setFrom 0 a).setFrom a.length b).setFrom offset c := by
  -- the runs make up one string of forty bytes
  have hjoin : ∀ s : State,
      ((s.setFrom 0 a).setFrom a.length b).setFrom offset c = s.setFrom 0 (a ++ b ++ c) := by
    intro s
    rw [setFrom_append, setFrom_append, List.length_append, Nat.zero_add, Nat.zero_add, hoffset]
  rw [hjoin, hjoin]
  apply setFrom_full
  rw [List.length_append, List.length_append]
  omega

end State

namespace Aead

variable {p : Parameters}

/-- What a duplex is started to depends on its key alone. -/
theorem setUp_eq_of_key (hp : p.WellFormed) (nonce : Nonce) {d e : UncheckedDuplex p.keySize}
    (h : d.key = e.key) : setUp p nonce d = setUp p nonce e := by
  have hstart : KeyedDuplex.start p.iv nonce d = KeyedDuplex.start p.iv nonce e := by
    obtain ⟨s, key⟩ := d
    obtain ⟨t, _⟩ := e
    cases h
    have hkey : p.iv.length + key.toList.length = nonceOffset := by
      rw [Vector.length_toList, hp.start_fits]
    have hnonce : nonceOffset + nonce.toList.length = 40 := by
      rw [Vector.length_toList]
      rfl
    have hfill := State.setFrom_fill s t hkey hnonce
    exact congrArg (fun state => (⟨state, key⟩ : UncheckedDuplex p.keySize)) hfill
  unfold setUp
  rw [hstart]

end Aead

namespace Siv

variable {p : Parameters}

/-! ### The keystream -/

theorem repeat_apply {α : Type} (f : α → α) (n : Nat) (a : α) :
    Nat.repeat f n (f a) = f (Nat.repeat f n a) := by
  induction n with
  | zero => rfl
  | succ n ih => rw [Nat.repeat, ih, Nat.repeat]

/-- The byte at position `i` of the keystream that is started from a state. -/
def streamByte (p : Parameters) (s : State) (i : Nat) : UInt8 :=
  (Nat.repeat (State.lastRounds p.rounds) (i / p.rate + 1) s).byte (i % p.rate)

theorem streamByte_of_lt (s : State) {i : Nat} (hi : i < p.rate) :
    streamByte p s i = (s.lastRounds p.rounds).byte i := by
  unfold streamByte
  rw [Nat.div_eq_of_lt hi, Nat.mod_eq_of_lt hi]
  rfl

/-- Behind the first block, the keystream goes on as it would from the next state. -/
theorem streamByte_add_rate (hrate : 0 < p.rate) (s : State) (i : Nat) :
    streamByte p s (i + p.rate) = streamByte p (s.lastRounds p.rounds) i := by
  unfold streamByte
  rw [Nat.add_div_right i hrate, Nat.add_mod_right, repeat_apply]
  rfl

/-- The data with the keystream added to them. -/
def addStream (p : Parameters) (s : State) (data : Bytes) : Bytes :=
  data.mapIdx fun i b => b ^^^ streamByte p s i

@[simp] theorem length_addStream (s : State) (data : Bytes) :
    (addStream p s data).length = data.length := List.length_mapIdx

theorem addStream_addStream (s : State) (data : Bytes) :
    addStream p s (addStream p s data) = data := by
  apply List.ext_getElem
  · simp
  · intro i _ _
    simp only [addStream, List.getElem_mapIdx, XorGroup.cancel_right]

theorem addStream_append (hrate : 0 < p.rate) (s : State) {block : Bytes}
    (hblock : block.length = p.rate) (data : Bytes) :
    addStream p s (block ++ data) =
      addStream p s block ++ addStream p (s.lastRounds p.rounds) data := by
  unfold addStream
  rw [List.mapIdx_append, hblock]
  simp only [streamByte_add_rate hrate]

/-- On one block the keystream is what the next state shows. -/
theorem xorBytes_slice (s : State) {block : Bytes} (hblock : block.length ≤ p.rate) :
    xorBytes block ((s.lastRounds p.rounds).slice 0 block.length).toList =
      addStream p s block := by
  apply List.ext_getElem
  · simp
  · intro i _ hi
    rw [length_addStream] at hi
    have hlt : i < p.rate := by omega
    simp [xorBytes, addStream, State.slice, streamByte_of_lt s hlt]

theorem streamPieces_cons {k : Nat} (piece : Bytes) (pieces : List Bytes)
    (d : UncheckedDuplex k) :
    streamPieces p (piece :: pieces) d =
      let next : UncheckedDuplex k := { d with state := d.state.lastRounds p.rounds }
      let rest := streamPieces p pieces next
      (xorBytes piece (next.state.slice 0 piece.length).toList ++ rest.1, rest.2) := rfl

/-- Piece by piece, the keystream is added to the whole message. -/
theorem streamPieces_fst {k : Nat} (hrate : 0 < p.rate) {pieces : List Bytes}
    (h : Blocks.Tiled p.rate pieces) (d : UncheckedDuplex k) :
    (streamPieces p pieces d).1 = addStream p d.state pieces.flatten := by
  -- the state is one permutation further at every piece
  induction h generalizing d with
  | nil => rfl
  | last hpiece =>
    rw [streamPieces_cons, List.flatten_cons, List.flatten_nil, List.append_nil]
    simp only [xorBytes_slice d.state hpiece]
    exact List.append_nil _
  | cons hpiece _ ih =>
    rw [streamPieces_cons, List.flatten_cons, addStream_append hrate d.state hpiece]
    simp only [xorBytes_slice d.state (Nat.le_of_eq hpiece), ih]

/-! ### One pass -/

variable {k : Nat}

/-- The tag that belongs to a plaintext. -/
def tagOf (p : Parameters) (key : Vector UInt8 k) (nonce : Nonce) (ad data : Bytes) : Tag :=
  (Id.run (authenticate p nonce ad data (PlainDuplex.new key).unchecked)).1

/-- The state that the keystream of a tag is started from. -/
def streamStart (p : Parameters) (key : Vector UInt8 k) (tag : Tag) : State :=
  (Id.run (Aead.setUp p tag (PlainDuplex.new key).unchecked)).state

/-- Wherever a duplex has been before, authenticating on it gives the tag that belongs to the
    plaintext. -/
theorem authenticate_run (hp : p.WellFormed) (hk : p.keySize = k) (nonce : Nonce)
    (ad data : Bytes) (d : PlainDuplex k) :
    ∃ e : PlainDuplex k, e.key = d.key ∧
      authenticate p nonce ad data d = .ok (tagOf p d.key nonce ad data, e) := by
  subst hk
  have hsim := PlainDuplex.simulation_unchecked d.key
  -- without checks, the pass may as well have begun on a new duplex
  obtain ⟨⟨out, e⟩, hrun, htag, he⟩ := agree_authenticate hsim hp nonce ad data ⟨rfl, rfl⟩
  have hsetup : Aead.setUp p nonce d.unchecked =
      Aead.setUp p nonce (PlainDuplex.new d.key).unchecked := Aead.setUp_eq_of_key hp nonce rfl
  have hfresh : authenticate p nonce ad data d.unchecked =
      authenticate p nonce ad data (PlainDuplex.new d.key).unchecked := by
    unfold authenticate
    rw [hsetup]
  rw [hfresh] at htag
  have hout : out = tagOf p d.key nonce ad data := htag
  have hkey : e.key = d.key := he.2
  refine ⟨e, hkey, ?_⟩
  rw [hrun, hout]

/-- Wherever a duplex has been before, applying a keystream on it adds the keystream of the tag. -/
theorem applyStream_run (hp : p.WellFormed) (hk : p.keySize = k) (tag : Tag) (data : Bytes)
    (d : PlainDuplex k) :
    ∃ e : PlainDuplex k, e.key = d.key ∧
      applyStream p tag data d = .ok (addStream p (streamStart p d.key tag) data, e) := by
  subst hk
  have hsim := PlainDuplex.simulation_unchecked d.key
  obtain ⟨⟨out, e⟩, hrun, hdata, he⟩ := agree_applyStream hsim hp tag data ⟨rfl, rfl⟩
  have hsetup : Aead.setUp p tag d.unchecked =
      Aead.setUp p tag (PlainDuplex.new d.key).unchecked := Aead.setUp_eq_of_key hp tag rfl
  have hfresh : applyStream p tag data d.unchecked =
      applyStream p tag data (PlainDuplex.new d.key).unchecked := by
    unfold applyStream
    rw [hsetup]
  have hstream := streamPieces_fst hp.rate_pos (Blocks.tiled_pieces hp.rate_pos data)
    (Id.run (Aead.setUp p tag (PlainDuplex.new d.key).unchecked))
  rw [Blocks.flatten_pieces] at hstream
  rw [hfresh] at hdata
  have hout : out = addStream p (streamStart p d.key tag) data := hdata.trans hstream
  have hkey : e.key = d.key := he.2
  refine ⟨e, hkey, ?_⟩
  rw [hrun, hout]

/-! ### The cipher -/

variable {v : Variant}

/-- The plaintext of a ciphertext, and the ciphertext of a plaintext, under a tag. -/
def streamed (c : Siv v) (tag : Tag) (data : Bytes) : Bytes :=
  addStream v.streamParameters (streamStart v.streamParameters c.key tag) data

theorem streamed_streamed (c : Siv v) (tag : Tag) (data : Bytes) :
    c.streamed tag (c.streamed tag data) = data := addStream_addStream _ data

/-- The tag of a plaintext. -/
def tag (c : Siv v) (nonce : Nonce) (ad data : Bytes) : Tag :=
  tagOf v.authParameters c.key nonce ad data

/-- Encryption authenticates the plaintext, and applies the keystream of the tag to it. -/
theorem encrypt_eq (c : Siv v) (nonce : Nonce) (ad data : Bytes) :
    c.encrypt nonce ad data =
      .ok (c.streamed (c.tag nonce ad data) data, c.tag nonce ad data) := by
  obtain ⟨d, hd, hauth⟩ := authenticate_run (k := v.keySize) v.authParameters_wellFormed rfl
    nonce ad data (PlainDuplex.new c.key)
  obtain ⟨e, _, hstream⟩ := applyStream_run (k := v.keySize) v.streamParameters_wellFormed rfl
    (c.tag nonce ad data) data d
  unfold encrypt
  rw [hauth]
  show (applyStream v.streamParameters (c.tag nonce ad data) data d >>= _) = _
  rw [hstream, hd]
  rfl

/-- Decryption applies the keystream of the tag it is given, and authenticates what comes out. -/
theorem decrypt_eq (c : Siv v) (nonce : Nonce) (ad data : Bytes) (given : Tag) :
    c.decrypt nonce ad data given =
      .ok (.ofTags (c.tag nonce ad (c.streamed given data)) given (c.streamed given data)) := by
  obtain ⟨d, hd, hstream⟩ := applyStream_run (k := v.keySize) v.streamParameters_wellFormed rfl
    given data (PlainDuplex.new c.key)
  obtain ⟨e, _, hauth⟩ := authenticate_run (k := v.keySize) v.authParameters_wellFormed rfl
    nonce ad (c.streamed given data) d
  unfold decrypt
  rw [hstream]
  show (authenticate v.authParameters nonce ad (c.streamed given data) d >>= _) = _
  rw [hauth, hd]
  rfl

theorem opens (c : Siv v) (nonce : Nonce) (ad : Bytes) :
    Opens (c.encrypt nonce ad) (c.decrypt nonce ad) fun data given =>
      (c.streamed given data, c.tag nonce ad (c.streamed given data)) where
  exists_enc plaintext := ⟨_, _, c.encrypt_eq nonce ad plaintext⟩
  dec_eq data given := c.decrypt_eq nonce ad data given
  enc_eq_iff plaintext data given := by
    rw [encrypt_eq, Except.ok.injEq, Prod.mk.injEq, Prod.mk.injEq]
    constructor
    · rintro ⟨rfl, rfl⟩
      rw [streamed_streamed]
      exact ⟨rfl, rfl⟩
    -- the tag that came along is the right one, so both sides use the same keystream
    · rintro ⟨rfl, htag⟩
      rw [htag, streamed_streamed]
      exact ⟨rfl, rfl⟩
  length_recover data _ := length_addStream _ data

/-- Misuse-resistant decryption is the inverse of encryption. What encryption gives is accepted; a
    message is accepted with a plaintext only if it is what encryption makes of the plaintext; and
    if it is not accepted, as many zero bytes are left of it. -/
theorem decrypt_undoes_encrypt (c : Siv v) (nonce : Nonce) (ad : Bytes) :
    (∀ p, ∃ data tag, c.encrypt nonce ad p = .ok (data, tag) ∧
      c.decrypt nonce ad data tag = .ok (.accepted p)) ∧
    (∀ data tag p, c.decrypt nonce ad data tag = .ok (.accepted p) ↔
      p.length = data.length ∧ c.encrypt nonce ad p = .ok (data, tag)) ∧
    (∀ data tag, (∃ p, c.decrypt nonce ad data tag = .ok (.accepted p)) ∨
      c.decrypt nonce ad data tag = .ok (.rejected (List.replicate data.length 0))) := by
  have h := c.opens nonce ad
  exact ⟨h.exists_enc_dec, h.dec_eq_accepted_iff, h.dec_accepted_or_rejected⟩

end Siv

end Ascon
