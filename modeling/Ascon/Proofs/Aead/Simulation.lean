import Ascon.Siv
import Ascon.Proofs.Agreement
import Ascon.Proofs.Blocks

/-! # Modes over two duplexes

  The modes know a duplex by its interface alone. If the operations of two
  duplexes agree, then so does everything that a mode makes of them, over
  either.

  - A mode only ever asks for accesses that lie inside the state and for numbers
    of rounds that there are. What it takes for that is a property of its
    parameters, `Parameters.WellFormed`. So the operations of the two duplexes
    have to agree on such arguments only.
  - The duplexes may live in different monads. Which, and what agreement means
    for them, is left open.
-/

namespace Ascon

/-! ### Parameters -/

/-- Parameters with which all accesses of a mode lie inside the state. -/
structure Parameters.WellFormed (p : Parameters) : Prop where
  /-- A block is not empty. -/
  rate_pos : 0 < p.rate
  /-- There is such a number of rounds. -/
  rounds_bounds : 1 ≤ p.rounds ∧ p.rounds ≤ maxRounds
  /-- Behind the bytes of a block there is room for the key. -/
  key_fits : p.rate + p.keySize ≤ stateBytes
  /-- The initial value and the key reach to the nonce. -/
  start_fits : p.iv.length + p.keySize = nonceOffset

theorem Parameters.WellFormed.rate_le {p : Parameters} (h : p.WellFormed) :
    p.rate ≤ stateBytes := by
  have hfits := h.key_fits
  omega

theorem Aead.Variant.wellFormed (v : Aead.Variant) : v.parameters.WellFormed := by
  cases v <;> exact ⟨by decide, by decide, by decide, by decide⟩

theorem Siv.Variant.authParameters_wellFormed (v : Siv.Variant) : v.authParameters.WellFormed := by
  cases v <;> exact ⟨by decide, by decide, by decide, by decide⟩

theorem Siv.Variant.streamParameters_wellFormed (v : Siv.Variant) :
    v.streamParameters.WellFormed := by
  cases v <;> exact ⟨by decide, by decide, by decide, by decide⟩

/-! ### Duplexes -/

theorem length_keyTail {k : Nat} (key : Vector UInt8 k) :
    (keyTail key).length = k - (k - 16) := by
  unfold keyTail
  rw [List.length_drop, Vector.length_toList]

/-- On related duplexes, both with a key of `k` bytes, every operation agrees wherever a mode may
    ask for it. -/
structure Simulation {δ₁ δ₂ : Type} {m₁ m₂ : Type → Type} [Monad m₁] [Monad m₂]
    [KeyedDuplex δ₁ m₁] [KeyedDuplex δ₂ m₂] [Agreement m₁ m₂] (k : Nat) (R : δ₁ → δ₂ → Prop) :
    Prop where
  start {iv : Bytes} {nonce : Nonce} {d : δ₁} {e : δ₂} (h : iv.length + k = nonceOffset)
    (hd : R d e) : Agree R (KeyedDuplex.start iv nonce d) (KeyedDuplex.start iv nonce e)
  permute {rounds : Nat} {d : δ₁} {e : δ₂} (h : 1 ≤ rounds ∧ rounds ≤ maxRounds) (hd : R d e) :
    Agree R (KeyedDuplex.permute rounds d) (KeyedDuplex.permute rounds e)
  addKey {offset : Nat} {d : δ₁} {e : δ₂} (h : offset + k ≤ stateBytes) (hd : R d e) :
    Agree R (KeyedDuplex.addKey offset d) (KeyedDuplex.addKey offset e)
  addKeyTail {offset : Nat} {d : δ₁} {e : δ₂} (h : offset + 16 ≤ stateBytes) (hd : R d e) :
    Agree R (KeyedDuplex.addKeyTail offset d) (KeyedDuplex.addKeyTail offset e)
  addBytes {data : Bytes} {offset : Nat} {d : δ₁} {e : δ₂}
    (h : offset + data.length ≤ stateBytes) (hd : R d e) :
    Agree R (KeyedDuplex.addBytes data offset d) (KeyedDuplex.addBytes data offset e)
  encryptBytes {data : Bytes} {offset : Nat} {d : δ₁} {e : δ₂}
    (h : offset + data.length ≤ stateBytes) (hd : R d e) :
    Agree (SameOutput R) (KeyedDuplex.encryptBytes data offset d)
      (KeyedDuplex.encryptBytes data offset e)
  decryptBytes {data : Bytes} {offset : Nat} {d : δ₁} {e : δ₂}
    (h : offset + data.length ≤ stateBytes) (hd : R d e) :
    Agree (SameOutput R) (KeyedDuplex.decryptBytes data offset d)
      (KeyedDuplex.decryptBytes data offset e)
  extractBytes {offset len : Nat} {d : δ₁} {e : δ₂} (h : offset + len ≤ stateBytes)
    (hd : R d e) :
    Agree Eq (KeyedDuplex.extractBytes offset len d) (KeyedDuplex.extractBytes offset len e)

/-! ### The mode of authenticated encryption -/

namespace Aead

variable {δ₁ δ₂ : Type} {m₁ m₂ : Type → Type} [Monad m₁] [Monad m₂] [KeyedDuplex δ₁ m₁]
  [KeyedDuplex δ₂ m₂] [Agreement m₁ m₂] {p : Parameters} {R : δ₁ → δ₂ → Prop} {d : δ₁} {e : δ₂}

theorem agree_setUp (h : Simulation p.keySize R) (hp : p.WellFormed) (nonce : Nonce)
    (hd : R d e) : Agree R (setUp p nonce d) (setUp p nonce e) := by
  -- the key goes to the very end of the state
  have hkey : stateBytes - p.keySize + p.keySize ≤ stateBytes := by
    have := hp.key_fits
    omega
  apply agree_bind (h.start hp.start_fits hd)
  intro d e hd
  apply agree_bind (h.permute (by decide) hd)
  intro d e hd
  exact h.addKey hkey hd

/-- Two treatments of a block agree on every block that fits into the state. -/
def AgreeOnBlocks (R : δ₁ → δ₂ → Prop) (step₁ : Bytes → δ₁ → m₁ (Bytes × δ₁))
    (step₂ : Bytes → δ₂ → m₂ (Bytes × δ₂)) : Prop :=
  ∀ {block d e}, block.length ≤ stateBytes → R d e →
    Agree (SameOutput R) (step₁ block d) (step₂ block e)

section blocks

variable {step₁ : Bytes → δ₁ → m₁ (Bytes × δ₁)} {step₂ : Bytes → δ₂ → m₂ (Bytes × δ₂)}

theorem agree_feedFull (h : Simulation p.keySize R) (hp : p.WellFormed)
    (hstep : AgreeOnBlocks R step₁ step₂)
    {blocks : List Bytes} (hlen : ∀ block ∈ blocks, block.length = p.rate) (hd : R d e) :
    Agree (SameOutput R) (feedFull p step₁ blocks d) (feedFull p step₂ blocks e) := by
  -- the relation is what is carried from one block to the next
  induction blocks generalizing d e with
  | nil => exact agree_pure ⟨rfl, hd⟩
  | cons block blocks ih =>
    have hblock : block.length ≤ stateBytes := by
      have := hlen block List.mem_cons_self
      have := hp.key_fits
      omega
    have hblocks : ∀ block ∈ blocks, block.length = p.rate :=
      fun b hb => hlen b (List.mem_cons_of_mem _ hb)
    apply agree_bind (hstep hblock hd)
    rintro ⟨out, d⟩ ⟨out', e⟩ ⟨hout, hd⟩
    apply agree_bind (h.permute hp.rounds_bounds hd)
    intro d e hd
    apply agree_bind (ih hblocks hd)
    rintro ⟨rest, d⟩ ⟨rest', e⟩ ⟨hrest, hd⟩
    cases hout
    cases hrest
    exact agree_pure ⟨rfl, hd⟩

/-- Treatments of a block that agree take all data alike, and pad them alike. -/
theorem agree_feed (h : Simulation p.keySize R) (hp : p.WellFormed)
    (hstep : AgreeOnBlocks R step₁ step₂) (data : Bytes) (hd : R d e) :
    Agree (SameOutput R) (feed p step₁ data d) (feed p step₂ data e) := by
  have hrest := Blocks.length_rest_lt hp.rate_pos data
  have hfits := hp.key_fits
  apply agree_bind (agree_feedFull h hp hstep Blocks.length_of_mem hd)
  rintro ⟨out, d⟩ ⟨out', e⟩ ⟨hout, hd⟩
  apply agree_bind (hstep (by omega) hd)
  rintro ⟨last, d⟩ ⟨last', e⟩ ⟨hlast, hd⟩
  -- behind a rest that is shorter than a block there is room for the padding
  have hpad : (Blocks.of p.rate data).rest.length + [padByte].length ≤ stateBytes := by
    rw [List.length_singleton]
    omega
  apply agree_bind (h.addBytes hpad hd)
  intro d e hpadded
  cases hout
  cases hlast
  exact agree_pure ⟨rfl, hpadded⟩

end blocks

theorem agreeOnBlocks_absorb (h : Simulation p.keySize R) :
    AgreeOnBlocks R absorbBlock absorbBlock := by
  intro block d e hlen hd
  apply agree_bind (h.addBytes (by omega) hd)
  intro d e hd
  exact agree_pure ⟨rfl, hd⟩

theorem agreeOnBlocks_encrypt (h : Simulation p.keySize R) :
    AgreeOnBlocks R (KeyedDuplex.encryptBytes · 0) (KeyedDuplex.encryptBytes · 0) := by
  intro block d e hlen hd
  exact h.encryptBytes (by omega) hd

theorem agreeOnBlocks_decrypt (h : Simulation p.keySize R) :
    AgreeOnBlocks R (KeyedDuplex.decryptBytes · 0) (KeyedDuplex.decryptBytes · 0) := by
  intro block d e hlen hd
  exact h.decryptBytes (by omega) hd

theorem agree_absorb (h : Simulation p.keySize R) (hp : p.WellFormed) (data : Bytes)
    (hd : R d e) : Agree R (absorb p data d) (absorb p data e) := by
  apply agree_bind (agree_feed h hp (agreeOnBlocks_absorb h) data hd)
  intro _ _ hd
  exact agree_pure hd.2

theorem agree_absorbAssociated (h : Simulation p.keySize R) (hp : p.WellFormed) (ad : Bytes)
    (hd : R d e) : Agree R (absorbAssociated p ad d) (absorbAssociated p ad e) := by
  have hsep : stateBytes - 1 + [separatorByte].length ≤ stateBytes := by decide
  cases ad with
  | nil => exact agree_bind (agree_pure hd) fun d e hd => h.addBytes hsep hd
  | cons b ad =>
    apply agree_bind (agree_absorb h hp (b :: ad) hd)
    intro d e hd
    apply agree_bind (h.permute hp.rounds_bounds hd)
    intro d e hd
    exact h.addBytes hsep hd

theorem agree_finalize (h : Simulation p.keySize R) (hp : p.WellFormed) (hd : R d e) :
    Agree (SameOutput R) (finalize p d) (finalize p e) := by
  apply agree_bind (h.addKey hp.key_fits hd)
  intro d e hd
  apply agree_bind (h.permute (by decide) hd)
  intro d e hd
  apply agree_bind (h.addKeyTail (by decide) hd)
  intro d e hd
  apply agree_bind (h.extractBytes (by decide) hd)
  intro tag tag' htag
  exact agree_pure ⟨htag, hd⟩

/-- Encryption over related duplexes gives the same ciphertext and the same tag. -/
theorem agree_encryptWith (h : Simulation p.keySize R) (hp : p.WellFormed) (nonce : Nonce)
    (ad data : Bytes) (hd : R d e) :
    Agree Eq (encryptWith p nonce ad data d) (encryptWith p nonce ad data e) := by
  apply agree_bind (agree_setUp h hp nonce hd)
  intro d e hd
  apply agree_bind (agree_absorbAssociated h hp ad hd)
  intro d e hd
  apply agree_bind (agree_feed h hp (agreeOnBlocks_encrypt h) data hd)
  rintro ⟨out, d⟩ ⟨out', e⟩ ⟨hout, hd⟩
  apply agree_bind (agree_finalize h hp hd)
  rintro ⟨tag, d⟩ ⟨tag', e⟩ ⟨htag, _⟩
  exact agree_pure (Prod.ext hout htag)

/-- Decryption over related duplexes has the same outcome. -/
theorem agree_decryptWith (h : Simulation p.keySize R) (hp : p.WellFormed) (nonce : Nonce)
    (ad data : Bytes) (tag : Tag) (hd : R d e) :
    Agree Eq (decryptWith p nonce ad data tag d) (decryptWith p nonce ad data tag e) := by
  apply agree_bind (agree_setUp h hp nonce hd)
  intro d e hd
  apply agree_bind (agree_absorbAssociated h hp ad hd)
  intro d e hd
  apply agree_bind (agree_feed h hp (agreeOnBlocks_decrypt h) data hd)
  rintro ⟨out, d⟩ ⟨out', e⟩ ⟨hout, hd⟩
  apply agree_bind (agree_finalize h hp hd)
  rintro ⟨expected, d⟩ ⟨expected', e⟩ ⟨htag, _⟩
  cases hout
  cases htag
  exact agree_pure rfl

end Aead

/-! ### The two passes of misuse-resistant encryption -/

namespace Siv

variable {δ₁ δ₂ : Type} {m₁ m₂ : Type → Type} [Monad m₁] [Monad m₂] [KeyedDuplex δ₁ m₁]
  [KeyedDuplex δ₂ m₂] [Agreement m₁ m₂] {p : Parameters} {R : δ₁ → δ₂ → Prop} {d : δ₁} {e : δ₂}

theorem agree_authenticate (h : Simulation p.keySize R) (hp : p.WellFormed) (nonce : Nonce)
    (ad data : Bytes) (hd : R d e) :
    Agree (SameOutput R) (authenticate p nonce ad data d) (authenticate p nonce ad data e) := by
  apply agree_bind (Aead.agree_setUp h hp nonce hd)
  intro d e hd
  apply agree_bind (Aead.agree_absorbAssociated h hp ad hd)
  intro d e hd
  apply agree_bind (Aead.agree_absorb h hp data hd)
  intro d e hd
  exact Aead.agree_finalize h hp hd

theorem agree_streamPieces (h : Simulation p.keySize R) (hp : p.WellFormed)
    {pieces : List Bytes} (hlen : ∀ piece ∈ pieces, piece.length ≤ stateBytes) (hd : R d e) :
    Agree (SameOutput R) (streamPieces p pieces d) (streamPieces p pieces e) := by
  induction pieces generalizing d e with
  | nil => exact agree_pure ⟨rfl, hd⟩
  | cons piece pieces ih =>
    have hpiece : 0 + piece.length ≤ stateBytes := by
      have := hlen piece List.mem_cons_self
      omega
    have hpieces : ∀ piece ∈ pieces, piece.length ≤ stateBytes :=
      fun b hb => hlen b (List.mem_cons_of_mem _ hb)
    apply agree_bind (h.permute hp.rounds_bounds hd)
    intro d e hd
    apply agree_bind (h.extractBytes hpiece hd)
    intro stream stream' hstream
    apply agree_bind (ih hpieces hd)
    rintro ⟨rest, d⟩ ⟨rest', e⟩ ⟨hrest, hd⟩
    cases hstream
    cases hrest
    exact agree_pure ⟨rfl, hd⟩

theorem agree_applyStream (h : Simulation p.keySize R) (hp : p.WellFormed) (tag : Tag)
    (data : Bytes) (hd : R d e) :
    Agree (SameOutput R) (applyStream p tag data d) (applyStream p tag data e) := by
  have hlen : ∀ piece ∈ Blocks.pieces p.rate data, piece.length ≤ stateBytes := by
    intro piece hpiece
    have := Blocks.length_of_mem_pieces hp.rate_pos piece hpiece
    have := hp.key_fits
    omega
  apply agree_bind (Aead.agree_setUp h hp tag hd)
  intro d e hd
  exact agree_streamPieces h hp hlen hd

end Siv

end Ascon
