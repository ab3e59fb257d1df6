import Ascon.Proofs.Aead.Unchecked
import Ascon.Proofs.State.Bytes

/-! # Decryption is the inverse of encryption

  A message is accepted if and only if it is what encryption makes of the
  plaintext that comes out.

  - `Opens` says what there is to an exact inverse, for any cipher with a
    detached tag. It is what the theorems about misuse-resistant encryption and
    about attached tags start from as well.
  - On a block, encrypting and decrypting take each other back: both leave the
    ciphertext in the state, and both give the sum of their input and the bytes
    that were there before.
  - So they take each other back over a whole message, which is cut into blocks
    in the same places on both sides, and the tags are read from equal states.
-/

namespace Ascon

/-! ### Opening a message -/

theorem Decryption.ofTags_eq_accepted {expected given : Tag} {out p : Bytes} :
    Decryption.ofTags expected given out = .accepted p ↔ expected = given ∧ out = p := by
  by_cases h : expected = given
  · simp [ofTags, h]
  · simp [ofTags, h]

/-- Decryption recovers a plaintext and a tag from every message, and accepts the message if it has
    this tag. Encryption gives a message if and only if the message is opened to what was
    encrypted. -/
structure Opens (enc : Bytes → Except Fault (Bytes × Tag))
    (dec : Bytes → Tag → Except Fault Decryption) (recover : Bytes → Tag → Bytes × Tag) :
    Prop where
  exists_enc (p : Bytes) : ∃ data tag, enc p = .ok (data, tag)
  dec_eq (data : Bytes) (tag : Tag) :
    dec data tag = .ok (.ofTags (recover data tag).2 tag (recover data tag).1)
  enc_eq_iff (p data : Bytes) (tag : Tag) :
    enc p = .ok (data, tag) ↔ recover data tag = (p, tag)
  length_recover (data : Bytes) (tag : Tag) : (recover data tag).1.length = data.length

namespace Opens

variable {enc : Bytes → Except Fault (Bytes × Tag)} {dec : Bytes → Tag → Except Fault Decryption}

theorem dec_eq_accepted_iff {recover : Bytes → Tag → Bytes × Tag} (h : Opens enc dec recover)
    (data : Bytes) (tag : Tag) (p : Bytes) :
    dec data tag = .ok (.accepted p) ↔ p.length = data.length ∧ enc p = .ok (data, tag) := by
  rw [h.dec_eq, h.enc_eq_iff, Except.ok.injEq, Decryption.ofTags_eq_accepted]
  constructor
  · rintro ⟨htag, hout⟩
    refine ⟨?_, Prod.ext hout htag⟩
    rw [← hout, h.length_recover]
  · rintro ⟨_, hrecover⟩
    rw [hrecover]
    exact ⟨rfl, rfl⟩

/-- Every plaintext can be encrypted, and what that gives is accepted. -/
theorem exists_enc_dec {recover : Bytes → Tag → Bytes × Tag} (h : Opens enc dec recover)
    (p : Bytes) :
    ∃ data tag, enc p = .ok (data, tag) ∧ dec data tag = .ok (.accepted p) := by
  obtain ⟨data, tag, henc⟩ := h.exists_enc p
  have hrecover := (h.enc_eq_iff p data tag).1 henc
  have hlen : p.length = data.length := by
    rw [← h.length_recover data tag, hrecover]
  exact ⟨data, tag, henc, (h.dec_eq_accepted_iff data tag p).2 ⟨hlen, henc⟩⟩

/-- A message that is not accepted leaves nothing but zeros. -/
theorem dec_accepted_or_rejected {recover : Bytes → Tag → Bytes × Tag}
    (h : Opens enc dec recover) (data : Bytes) (tag : Tag) :
    (∃ p, dec data tag = .ok (.accepted p)) ∨
      dec data tag = .ok (.rejected (List.replicate data.length 0)) := by
  rw [h.dec_eq, Decryption.ofTags, h.length_recover]
  split
  · exact .inl ⟨_, rfl⟩
  · exact .inr rfl

/-- If what is recovered does not depend on the tag that came along, one tag is accepted. -/
theorem exists_tag_iff {recover : Bytes → Bytes × Tag}
    (h : Opens enc dec fun data _ => recover data) (data : Bytes) :
    ∃ expected, ∀ tag, (∃ p, dec data tag = .ok (.accepted p)) ↔ tag = expected := by
  refine ⟨(recover data).2, fun tag => ?_⟩
  simp only [h.dec_eq, Except.ok.injEq, Decryption.ofTags_eq_accepted]
  constructor
  · rintro ⟨_, htag, _⟩
    exact htag.symm
  · intro htag
    exact ⟨_, htag.symm, rfl⟩

end Opens

/-! ### Blocks -/

namespace Aead

variable {k : Nat} {p : Parameters}
  {f g : Bytes → UncheckedDuplex k → Id (Bytes × UncheckedDuplex k)}

/-- On every block that fits into the state, `g` takes back what `f` does, and leaves the same
    duplex behind. -/
def TakesBack (g f : Bytes → UncheckedDuplex k → Id (Bytes × UncheckedDuplex k)) : Prop :=
  ∀ block d, block.length ≤ stateBytes →
    ∃ out next, out.length = block.length ∧ f block d = (out, next) ∧ g out d = (block, next)

theorem decrypt_takesBack_encrypt :
    TakesBack (k := k) (KeyedDuplex.decryptBytes · 0) (KeyedDuplex.encryptBytes · 0) := by
  intro block d hblock
  have hfits : 0 + block.length ≤ 40 := by
    rw [Nat.zero_add]
    exact hblock
  have hshown : (d.state.slice 0 block.length).toList.length = block.length :=
    Vector.length_toList
  have hlen := d.state.length_xorBytes_slice 0 block
  refine ⟨xorBytes (d.state.slice 0 block.length).toList block,
    { d with state := d.state.addFrom 0 block }, hlen, ?_, ?_⟩
  · exact Prod.ext (State.slice_addFrom d.state hfits) rfl
  · apply Prod.ext
    · show xorBytes (d.state.slice 0 _).toList _ = block
      rw [hlen, xorBytes_cancel hshown]
    · show { d with state := d.state.setFrom 0 _ } = { d with state := d.state.addFrom 0 block }
      rw [State.addFrom_eq_setFrom d.state hfits]

theorem encrypt_takesBack_decrypt :
    TakesBack (k := k) (KeyedDuplex.encryptBytes · 0) (KeyedDuplex.decryptBytes · 0) := by
  intro block d hblock
  have hfits : 0 + block.length ≤ 40 := by
    rw [Nat.zero_add]
    exact hblock
  have hlen := d.state.length_xorBytes_slice 0 block
  -- the plaintext has what was there in it, so that adding it leaves the ciphertext alone
  have hnext := d.state.addFrom_xorBytes_slice hfits
  refine ⟨xorBytes (d.state.slice 0 block.length).toList block,
    { d with state := d.state.setFrom 0 block }, hlen, rfl, ?_⟩
  apply Prod.ext
  · show ((d.state.addFrom 0 _).slice 0 _).toList = block
    rw [hnext, hlen, State.slice_setFrom d.state hfits]
  · show { d with state := d.state.addFrom 0 _ } = { d with state := d.state.setFrom 0 block }
    rw [hnext]

/-! ### Messages -/

theorem feedFull_takesBack (h : TakesBack g f) (hp : p.WellFormed) {blocks : List Bytes}
    (hlen : ∀ block ∈ blocks, block.length = p.rate) (d : UncheckedDuplex k) :
    ∃ outs next, outs.length = blocks.length ∧ (∀ out ∈ outs, out.length = p.rate) ∧
      feedFull p f blocks d = (outs.flatten, next) ∧
      feedFull p g outs d = (blocks.flatten, next) := by
  -- both sides go on from the same duplex, so the induction is over all duplexes
  induction blocks generalizing d with
  | nil => exact ⟨[], d, rfl, by simp, rfl, rfl⟩
  | cons block blocks ih =>
    have hblock : block.length = p.rate := hlen block List.mem_cons_self
    have hfits : block.length ≤ stateBytes := by
      have := hp.key_fits
      omega
    obtain ⟨out, next, hout, hf, hg⟩ := h block d hfits
    obtain ⟨outs, last, hcount, houts, hfs, hgs⟩ :=
      ih (fun b hb => hlen b (List.mem_cons_of_mem _ hb)) (KeyedDuplex.permute p.rounds next)
    refine ⟨out :: outs, last, ?_, ?_, ?_, ?_⟩
    · rw [List.length_cons, hcount, List.length_cons]
    · intro b hb
      rcases List.mem_cons.1 hb with rfl | hmem
      · rw [hout, hblock]
      · exact houts b hmem
    · simp only [feedFull_cons, hf, hfs, List.flatten_cons]
    · simp only [feedFull_cons, hg, hgs, List.flatten_cons]

/-- Over a whole message, too, `g` takes back what `f` does. -/
theorem feed_takesBack (h : TakesBack g f) (hp : p.WellFormed) (data : Bytes)
    (d : UncheckedDuplex k) :
    ∃ out next, out.length = data.length ∧ feed p f data d = (out, next) ∧
      feed p g out d = (data, next) := by
  have hrest := Blocks.length_rest_lt hp.rate_pos data
  have hfits := hp.key_fits
  have hfull : ∀ block ∈ (Blocks.of p.rate data).full, block.length = p.rate :=
    Blocks.length_of_mem
  have hjoin := Blocks.of_join p.rate data
  obtain ⟨outs, mid, hcount, houts, hfs, hgs⟩ := feedFull_takesBack h hp hfull d
  obtain ⟨out, next, hout, hf, hg⟩ := h (Blocks.of p.rate data).rest mid (by omega)
  -- the output falls into blocks where the input does
  have hblocks : Blocks.of p.rate (outs.flatten ++ out) = ⟨outs, out⟩ :=
    Blocks.of_flatten_append houts (by omega)
  have hlen : (outs.flatten ++ out).length = data.length := by
    rw [← hjoin, List.length_append, List.length_append, Blocks.length_flatten houts,
      Blocks.length_flatten hfull, hcount, hout]
  -- both sides pad behind as many bytes
  let padded : Id (UncheckedDuplex k) :=
    KeyedDuplex.addBytes [padByte] (Blocks.of p.rate data).rest.length next
  refine ⟨outs.flatten ++ out, padded, hlen, ?_, ?_⟩
  · simp only [feed_eq, hfs, hf, padded]
  · simp only [feed_eq, hblocks, hgs, hg, hout, hjoin, padded]

/-! ### The cipher -/

variable {v : Variant}

/-- The duplex that is behind a message when its associated data have been taken in. -/
def readied (c : Aead v) (nonce : Nonce) (ad : Bytes) : UncheckedDuplex v.keySize :=
  Id.run do
    let d ← setUp v.parameters nonce (PlainDuplex.new c.key).unchecked
    absorbAssociated v.parameters ad d

/-- What a message is opened to: the plaintext, and the tag that would be right. -/
def opening (c : Aead v) (nonce : Nonce) (ad data : Bytes) : Bytes × Tag :=
  Id.run do
    let (out, d) ← feed v.parameters (KeyedDuplex.decryptBytes · 0) data (c.readied nonce ad)
    let (expected, _) ← finalize v.parameters d
    return (out, expected)

theorem opens (c : Aead v) (nonce : Nonce) (ad : Bytes) :
    Opens (c.encrypt nonce ad) (c.decrypt nonce ad) fun data _ => c.opening nonce ad data where
  exists_enc plaintext := ⟨_, _, encrypt_unchecked c nonce ad plaintext⟩
  dec_eq data tag := decrypt_unchecked c nonce ad data tag
  enc_eq_iff plaintext data tag := by
    have henc : c.encrypt nonce ad plaintext = .ok (
        let sent := feed v.parameters (KeyedDuplex.encryptBytes · 0) plaintext (c.readied nonce ad)
        (sent.1, (finalize v.parameters sent.2).1)) := encrypt_unchecked c nonce ad plaintext
    have hdec : c.opening nonce ad data =
        let got := feed v.parameters (KeyedDuplex.decryptBytes · 0) data (c.readied nonce ad)
        (got.1, (finalize v.parameters got.2).1) := rfl
    rw [henc, hdec, Except.ok.injEq]
    constructor
    -- what is sent is taken back by whoever receives it
    · intro h
      obtain ⟨out, next, _, hsent, hgot⟩ :=
        feed_takesBack decrypt_takesBack_encrypt v.wellFormed plaintext (c.readied nonce ad)
      simp only [hsent, Prod.mk.injEq] at h
      obtain ⟨rfl, htag⟩ := h
      simp only [hgot, htag]
    -- what comes out of a message would be sent as that message
    · intro h
      obtain ⟨out, next, _, hgot, hsent⟩ :=
        feed_takesBack encrypt_takesBack_decrypt v.wellFormed data (c.readied nonce ad)
      simp only [hgot, Prod.mk.injEq] at h
      obtain ⟨rfl, htag⟩ := h
      simp only [hsent, htag]
  length_recover data _ := by
    obtain ⟨out, next, hlen, hgot, _⟩ :=
      feed_takesBack encrypt_takesBack_decrypt v.wellFormed data (c.readied nonce ad)
    have hopening : (c.opening nonce ad data).1 =
        (feed v.parameters (KeyedDuplex.decryptBytes · 0) data (c.readied nonce ad)).1 := rfl
    rw [hopening, hgot, hlen]

/-- Decryption is the inverse of encryption and accepts nothing else. What encryption gives is
    accepted; a message is accepted with a plaintext only if it is what encryption makes of the
    plaintext; there is exactly one tag with which it is accepted; and if it is not accepted, as
    many zero bytes are left of it. -/
theorem decrypt_inverts_encrypt (c : Aead v) (nonce : Nonce) (ad : Bytes) :
    (∀ p, ∃ data tag, c.encrypt nonce ad p = .ok (data, tag) ∧
      c.decrypt nonce ad data tag = .ok (.accepted p)) ∧
    (∀ data tag p, c.decrypt nonce ad data tag = .ok (.accepted p) ↔
      p.length = data.length ∧ c.encrypt nonce ad p = .ok (data, tag)) ∧
    (∀ data, ∃ expected, ∀ tag,
      (∃ p, c.decrypt nonce ad data tag = .ok (.accepted p)) ↔ tag = expected) ∧
    (∀ data tag, (∃ p, c.decrypt nonce ad data tag = .ok (.accepted p)) ∨
      c.decrypt nonce ad data tag = .ok (.rejected (List.replicate data.length 0))) := by
  have h := c.opens nonce ad
  exact ⟨h.exists_enc_dec, h.dec_eq_accepted_iff, h.exists_tag_iff, h.dec_accepted_or_rejected⟩

end Aead

end Ascon
