import Ascon.Hash
import Ascon.Proofs.Aead.Padding
import Ascon.Proofs.Permutation
import Ascon.Proofs.Prf
import Ascon.Proofs.Siv

/-! # No two modes start alike

  Every mode starts with one permutation of forty bytes, in which its initial
  value, its key and its other parameters lie one behind the other. What the
  modes do from there on is kept apart by these forty bytes.

  - The first four bytes tell the mode and its variant. For the short PRF they
    tell the length of its input as well, so that the zeros behind a short input
    are not taken for input.
  - The other bytes are then cut in one way only, and every part but the output
    length can be read off as it is. A length that does not fit into the initial
    value has been replaced by `0`.
  - `Start.begins` is what the modes have to do with this. The rest is about byte
    strings, until at the end the permutation, which is injective, keeps apart
    what it is applied to.
-/

namespace Ascon

/-! ### Words and their bytes -/

namespace Lane

/-- The upper half of a word that has 32 bits is empty. -/
theorem get_toUInt64_upper (w : UInt32) {k : Nat} (hk : k < 4) : get w.toUInt64 k = 0 := by
  have hk8 : k < 8 := by omega
  apply UInt8.toBitVec_inj.1
  ext i hi
  have hpast : 32 ≤ 56 - 8 * k + i := by omega
  rw [getElem_get _ hk8 i hi, UInt32.toBitVec_toUInt64, BitVec.getElem_setWidth,
    BitVec.getLsbD_of_ge _ _ hpast]
  simp

/-- The lower half of it holds its bytes. -/
theorem get_toUInt64_lower (w : UInt32) {k : Nat} (hk : k < 4) :
    get w.toUInt64 (4 + k) = (bigEndian32 w)[k] := by
  have hk8 : 4 + k < 8 := by omega
  have hshift : (24 - 8 * k) % 32 = 24 - 8 * k := by omega
  have hpos : 56 - 8 * (4 + k) = 24 - 8 * k := by omega
  apply UInt8.toBitVec_inj.1
  ext i hi
  rw [getElem_get _ hk8 i hi, UInt32.toBitVec_toUInt64, BitVec.getElem_setWidth]
  simp [bigEndian32, hpos, hshift]

end Lane

theorem bigEndian32_injective : Function.Injective bigEndian32 := by
  intro v w h
  apply UInt32.toUInt64_inj.1
  apply Lane.ext
  intro k hk
  by_cases hupper : k < 4
  · rw [Lane.get_toUInt64_upper v hupper, Lane.get_toUInt64_upper w hupper]
  · obtain ⟨j, rfl⟩ : ∃ j, k = 4 + j := ⟨k - 4, by omega⟩
    have hj : j < 4 := by omega
    rw [Lane.get_toUInt64_lower v hj, Lane.get_toUInt64_lower w hj, h]

/-- In a word whose lower half is empty, a word of 32 bits goes there. -/
theorem bigEndian64_or (v : UInt64) (w : UInt32) (hv : ∀ k < 8, 4 ≤ k → Lane.get v k = 0) :
    (bigEndian64 (v ||| w.toUInt64)).toList =
      (bigEndian64 v).toList.take 4 ++ (bigEndian32 w).toList := by
  apply List.ext_getElem
  · simp
  · intro k hk _
    have hk8 : k < 8 := by simpa using hk
    by_cases hupper : k < 4
    · have hempty := Lane.get_toUInt64_upper w hupper
      simp [hupper, bigEndian64, Lane.get_or _ _ hk8, hempty]
    · obtain ⟨j, rfl⟩ : ∃ j, k = 4 + j := ⟨k - 4, by omega⟩
      have hj : j < 4 := by omega
      have hempty := hv (4 + j) hk8 (by omega)
      have hlower := Lane.get_toUInt64_lower w hj
      simp [bigEndian64, Lane.get_or _ _ hk8, hempty, hlower]

namespace State

/-! ### States that hold some bytes -/

/-- A state holds the bytes of its first word, if the others are empty. -/
theorem holding_bigEndian64 (w : UInt64) :
    holding 0 (bigEndian64 w).toList = { zero with x0 := w } := by
  have hlen : 0 + (bigEndian64 w).toList.length ≤ 40 := by simp
  apply ext_byte
  intro p hp
  rw [holding, byte_setFrom zero _ hlen]
  by_cases hfirst : p < 8
  · have hword : p / 8 = 0 := by omega
    have hlane : p % 8 = p := by omega
    simp [hfirst, byte, hword, hlane, word, bigEndian64]
  · obtain ⟨i, hi⟩ : ∃ i, p / 8 = i + 1 := ⟨p / 8 - 1, by omega⟩
    have hword : ({ zero with x0 := w } : State).word (i + 1) = zero.word (i + 1) := by
      rcases i with _ | _ | _ | _ | i <;> rfl
    simp [hfirst, byte, hi, hword]

/-- Zeros behind the bytes that a state holds are there anyway. -/
theorem holding_append_zeros {data : Bytes} {len : Nat} (h : data.length + len ≤ 40) :
    holding 0 (data ++ List.replicate len 0) = holding 0 data := by
  have hzeros : data.length + (List.replicate len (0 : UInt8)).length ≤ 40 := by simpa using h
  have hempty : ∀ s : State, zero ^^^ s = s := XorGroup.zeros_left
  rw [← hempty (holding 0 (data ++ _)), xor_holding_append zero hzeros, addFrom_zeros _ h, hempty]

end State

/-! ### Bound output lengths -/

/-- The output length that an initial value holds. -/
def boundLength (len : Nat) : Nat := if len < maxBoundOutput then len else 0

/-- The bits of a bound length fit. -/
theorem toNat_boundOutputBits (len : Nat) :
    (boundOutputBits len).toNat = 8 * boundLength len := by
  unfold boundOutputBits boundLength
  split
  · next h =>
    rw [maxBoundOutput] at h
    have hfits : len * 8 < 4294967296 := by omega
    simp [Nat.mod_eq_of_lt hfits, Nat.mul_comm]
  · rfl

theorem boundOutputBits_inj {m n : Nat} :
    boundOutputBits m = boundOutputBits n ↔ boundLength m = boundLength n := by
  rw [← UInt32.toNat_inj, toNat_boundOutputBits, toNat_boundOutputBits]
  omega

/-- A length that an initial value holds is bound as it is. -/
theorem boundLength_boundLength (len : Nat) : boundLength (boundLength len) = boundLength len := by
  unfold boundLength
  split
  · rfl
  · exact ite_self 0

/-! ### Modes and their starts -/

/-- The modes in all their variants. The short PRF counts as a mode for every length of its
    input. -/
inductive Mode where
  | aead (v : Aead.Variant)
  | authenticate (v : Siv.Variant)
  | stream (v : Siv.Variant)
  | xof (v : HashVariant)
  | prf
  | prfShort (len : Fin (prfShortMaxInput + 1))
deriving DecidableEq

/-- The four bytes with which a mode starts. -/
def Mode.header : Mode → Bytes
  | aead v => v.parameters.iv.take 4
  | authenticate v => v.authParameters.iv.take 4
  | stream v => v.streamParameters.iv.take 4
  | xof v => (bigEndian64 v.iv).toList.take 4
  | prf => [0x80, 0x80, 0x8c, 0x00]
  | prfShort len => [0x80, (len.val * 8).toUInt8, 0x4c, 0x80]

theorem Mode.length_header (mode : Mode) : mode.header.length = 4 := by
  cases mode with
  | aead v => cases v <;> rfl
  | authenticate v => cases v <;> rfl
  | stream v => cases v <;> rfl
  | xof v => cases v <;> rfl
  | prf => rfl
  | prfShort len => rfl

/-- The mode that starts with the given bytes. -/
def Mode.ofHeader : Bytes → Option Mode
  | [0x80, 0x40, 0x0c, 0x06] => some (.aead .ascon128)
  | [0x80, 0x80, 0x0c, 0x08] => some (.aead .ascon128a)
  | [0xa0, 0x40, 0x0c, 0x06] => some (.aead .ascon80pq)
  | [0x81, 0x40, 0x0c, 0x06] => some (.authenticate .ascon128)
  | [0x81, 0x80, 0x0c, 0x08] => some (.authenticate .ascon128a)
  | [0x82, 0x40, 0x0c, 0x06] => some (.stream .ascon128)
  | [0x82, 0x80, 0x0c, 0x08] => some (.stream .ascon128a)
  | [0x00, 0x40, 0x0c, 0x00] => some (.xof .ascon)
  | [0x00, 0x40, 0x0c, 0x04] => some (.xof .asconA)
  | [0x80, 0x80, 0x8c, 0x00] => some .prf
  | [0x80, bits, 0x4c, 0x80] => some (.prfShort (Fin.ofNat _ (bits.toNat / 8)))
  | _ => none

theorem Mode.ofHeader_header (mode : Mode) : ofHeader mode.header = some mode := by
  cases mode with
  | aead v => cases v <;> rfl
  | authenticate v => cases v <;> rfl
  | stream v => cases v <;> rfl
  | xof v => cases v <;> rfl
  | prf => rfl
  | prfShort len =>
    revert len
    decide

/-- No two modes start with the same bytes. -/
theorem Mode.header_injective : Function.Injective Mode.header := by
  intro mode mode' h
  have hread := congrArg ofHeader h
  rw [ofHeader_header, ofHeader_header] at hread
  exact Option.some.inj hread

/-- A start of a mode, with everything that goes into it. -/
inductive Start where
  | aead (v : Aead.Variant) (key : Vector UInt8 v.keySize) (nonce : Nonce)
  | authenticate (v : Siv.Variant) (key : Vector UInt8 v.keySize) (nonce : Nonce)
  | stream (v : Siv.Variant) (key : Vector UInt8 v.keySize) (tag : Tag)
  | xof (v : HashVariant) (len : Nat)
  | prf (key : PrfKey) (len : Nat)
  | prfShort (key : PrfKey) (data : Bytes) (h : data.length ≤ prfShortMaxInput)

/-- What stands behind the first four bytes where a keyed mode starts. -/
def Parameters.startBody (p : Parameters) (key : Vector UInt8 p.keySize) (nonce : Nonce) : Bytes :=
  p.iv.drop 4 ++ (key.toList ++ nonce.toList)

theorem Parameters.length_startBody {p : Parameters} (hp : p.WellFormed) (hiv : 4 ≤ p.iv.length)
    (key : Vector UInt8 p.keySize) (nonce : Nonce) : (p.startBody key nonce).length = 36 := by
  have hfits := hp.start_fits
  have hnonce : nonce.toList.length = 16 := Vector.length_toList
  rw [nonceOffset, stateBytes, nonceBytes] at hfits
  rw [startBody, List.length_append, List.length_append, List.length_drop, Vector.length_toList,
    hnonce]
  omega

theorem Parameters.startBody_inj {p : Parameters} {key key' : Vector UInt8 p.keySize}
    {nonce nonce' : Nonce} (h : p.startBody key nonce = p.startBody key' nonce') :
    key = key' ∧ nonce = nonce' := by
  have hparts := (List.append_inj h rfl).2
  obtain ⟨hkey, hnonce⟩ := List.append_inj hparts (by simp only [Vector.length_toList])
  exact ⟨Vector.toList_inj.1 hkey, Vector.toList_inj.1 hnonce⟩

namespace Start

/-- The mode that is started. -/
def mode : Start → Mode
  | aead v _ _ => .aead v
  | authenticate v _ _ => .authenticate v
  | stream v _ _ => .stream v
  | xof v _ => .xof v
  | prf _ _ => .prf
  | prfShort _ data h => .prfShort ⟨data.length, Nat.lt_succ_of_le h⟩

/-- What stands behind the first four bytes. -/
def body : Start → Bytes
  | aead v key nonce => v.parameters.startBody key nonce
  | authenticate v key nonce => v.authParameters.startBody key nonce
  | stream v key tag => v.streamParameters.startBody key tag
  | xof _ len => (bigEndian32 (boundOutputBits len)).toList ++ List.replicate 32 0
  | prf key len =>
    (bigEndian32 (boundOutputBits len)).toList ++ (key.toList ++ List.replicate 16 0)
  | prfShort key data _ =>
    List.replicate 4 0 ++ (key.toList ++ (data ++ List.replicate (16 - data.length) 0))

/-- The forty bytes with which the mode starts. -/
def bytes (s : Start) : Bytes := s.mode.header ++ s.body

/-- The state that is permuted first. -/
def initial (s : Start) : State := .holding 0 s.bytes

/-- The start as an initial value knows it: with the output length that is bound. -/
def bound : Start → Start
  | xof v len => xof v (boundLength len)
  | prf key len => prf key (boundLength len)
  | s => s

theorem length_body (s : Start) : s.body.length = 36 := by
  cases s with
  | aead v key nonce =>
    exact Parameters.length_startBody v.wellFormed (by cases v <;> decide) key nonce
  | authenticate v key nonce =>
    exact Parameters.length_startBody v.authParameters_wellFormed (by cases v <;> decide) key nonce
  | stream v key tag =>
    exact Parameters.length_startBody v.streamParameters_wellFormed (by cases v <;> decide) key tag
  | xof v len => simp [body]
  | prf key len =>
    have hkey : key.toList.length = 16 := Vector.length_toList
    simp [body, hkey]
  | prfShort key data h =>
    have hkey : key.toList.length = 16 := Vector.length_toList
    rw [prfShortMaxInput] at h
    simp only [body, List.length_append, List.length_replicate, hkey]
    omega

theorem length_bytes (s : Start) : s.bytes.length = 40 := by
  rw [bytes, List.length_append, s.mode.length_header, s.length_body]

/-- What stands behind the mode tells all that goes into a start. -/
theorem bound_eq_of_body {s t : Start} (hmode : s.mode = t.mode) (h : s.body = t.body) :
    s.bound = t.bound := by
  have hbits : ∀ {m n : Nat}, (bigEndian32 (boundOutputBits m)).toList =
      (bigEndian32 (boundOutputBits n)).toList → boundLength m = boundLength n :=
    fun h => boundOutputBits_inj.1 (bigEndian32_injective (Vector.toList_inj.1 h))
  match s, t, hmode with
  | aead v key nonce, aead _ key' nonce', rfl =>
    obtain ⟨rfl, rfl⟩ := Parameters.startBody_inj h
    rfl
  | authenticate v key nonce, authenticate _ key' nonce', rfl =>
    obtain ⟨rfl, rfl⟩ := Parameters.startBody_inj h
    rfl
  | stream v key tag, stream _ key' tag', rfl =>
    obtain ⟨rfl, rfl⟩ := Parameters.startBody_inj h
    rfl
  | xof v len, xof _ len', rfl =>
    have hlen := hbits (List.append_inj h (by simp)).1
    rw [bound, bound, hlen]
  | prf key len, prf key' len', _ =>
    obtain ⟨hlen, hkey⟩ := List.append_inj h (by simp)
    have hkey' := Vector.toList_inj.1 (List.append_inj hkey (by simp only [Vector.length_toList])).1
    rw [bound, bound, hbits hlen, hkey']
  | prfShort key data _, prfShort key' data' _, hmode =>
    -- the mode tells where the input ends and its zeros begin
    have hlen : data.length = data'.length := by simpa [mode] using hmode
    obtain ⟨hkey, hdata⟩ := List.append_inj (List.append_inj h rfl).2
      (by simp only [Vector.length_toList])
    obtain rfl := Vector.toList_inj.1 hkey
    obtain rfl := (List.append_inj hdata hlen).1
    rfl

/-- Only the output length that is bound goes into a start. -/
theorem bytes_bound (s : Start) : s.bound.bytes = s.bytes := by
  have hbits : ∀ n, boundOutputBits (boundLength n) = boundOutputBits n :=
    fun n => boundOutputBits_inj.2 (boundLength_boundLength n)
  cases s with
  | xof v len => simp only [bytes, bound, mode, body, hbits]
  | prf key len => simp only [bytes, bound, mode, body, hbits]
  | _ => rfl

/-- Two modes start from the same state only if they are the same mode, started with the same key,
    nonce, tag and input, and if the same output length is bound. -/
theorem initial_eq_iff (s t : Start) : s.initial = t.initial ↔ s.bound = t.bound := by
  constructor
  · intro h
    have hlen : s.bytes.length = t.bytes.length := by rw [length_bytes, length_bytes]
    have hbytes := State.holding_inj hlen (Nat.le_of_eq s.length_bytes) h
    have hheader : s.mode.header.length = t.mode.header.length := by
      rw [Mode.length_header, Mode.length_header]
    obtain ⟨hmode, hbody⟩ := List.append_inj hbytes hheader
    exact bound_eq_of_body (Mode.header_injective hmode) hbody
  · intro h
    rw [initial, initial, ← s.bytes_bound, ← t.bytes_bound, h]

/-- The permutation keeps the states of different starts apart. -/
theorem permuted_eq_iff (s t : Start) :
    s.initial.permute12 = t.initial.permute12 ↔ s.bound = t.bound := by
  rw [← initial_eq_iff]
  exact (State.lastRounds_injective 12).eq_iff

end Start

/-! ### What the modes do with their starts -/

/-- Wherever a duplex has been before, it is set up to the state that its key and the nonce are
    started to. -/
theorem Aead.setUp_run {p : Parameters} (hp : p.WellFormed) (nonce : Nonce)
    (d : PlainDuplex p.keySize) :
    setUp p nonce d = .ok ⟨startState p d.key nonce, d.key⟩ := by
  obtain ⟨e, hrun, he, -⟩ :=
    agree_setUp (PlainDuplex.simulation_unchecked d.key) hp nonce ⟨rfl, rfl⟩
  have hfresh : setUp p nonce d.unchecked = setUp p nonce (PlainDuplex.new d.key).unchecked :=
    setUp_eq_of_key hp nonce rfl
  rw [hfresh, setUp_eq hp] at he
  obtain ⟨state, key⟩ := e
  cases he
  exact hrun

namespace Start

/-- The mode does start from the forty bytes: it permutes the state that holds them, and goes on
    from there. A keyed mode does so wherever its duplex has been before. -/
def Begins : Start → Prop
  | s@(aead v key nonce) => ∀ d : PlainDuplex v.keySize, d.key = key →
    Aead.setUp v.parameters nonce d =
      .ok ⟨s.initial.permute12 ^^^ .holding (stateBytes - v.keySize) key.toList, key⟩
  | s@(authenticate v key nonce) => ∀ d : PlainDuplex v.keySize, d.key = key →
    Aead.setUp v.authParameters nonce d =
      .ok ⟨s.initial.permute12 ^^^ .holding (stateBytes - v.keySize) key.toList, key⟩
  | s@(stream v key tag) => ∀ d : PlainDuplex v.keySize, d.key = key →
    Aead.setUp v.streamParameters tag d =
      .ok ⟨s.initial.permute12 ^^^ .holding (stateBytes - v.keySize) key.toList, key⟩
  | s@(xof v len) => (Xof.withOutputLen len : Xof v).sponge = .begin s.initial
  | s@(prf key len) => (Prf.withOutputLen key len).sponge = .begin s.initial
  | s@(prfShort key data _) => ∀ len ≤ prfShortMaxOutput,
    Ascon.prfShort key data len =
      .ok ((s.initial.permute12 ^^^ .holding prfShortOffset key.toList).slice prfShortOffset len)

/-- Where the forty bytes of a keyed mode are its initial value, key and nonce, it starts from
    them. -/
theorem setUp_of_bytes {p : Parameters} (hp : p.WellFormed) {key : Vector UInt8 p.keySize}
    {nonce : Nonce} {s : Start} (hs : s.bytes = p.iv.take 4 ++ p.startBody key nonce)
    (d : PlainDuplex p.keySize) (hd : d.key = key) :
    Aead.setUp p nonce d =
      .ok ⟨s.initial.permute12 ^^^ .holding (stateBytes - p.keySize) key.toList, key⟩ := by
  subst hd
  have hbytes : s.bytes = p.iv ++ d.key.toList ++ nonce.toList := by
    rw [hs, Parameters.startBody, ← List.append_assoc, List.take_append_drop, List.append_assoc]
  rw [Aead.setUp_run hp, initial, hbytes]
  rfl

theorem initial_xof (v : HashVariant) (len : Nat) :
    (xof v len).initial = { State.zero with x0 := v.iv ||| (boundOutputBits len).toUInt64 } := by
  have hlow : ∀ k < 8, 4 ≤ k → Lane.get v.iv k = 0 := by cases v <;> decide
  have hfits : ((xof v len).mode.header ++ (bigEndian32 (boundOutputBits len)).toList).length + 32
      ≤ 40 := by
    simp [Mode.length_header]
  rw [initial, bytes, body, ← List.append_assoc, State.holding_append_zeros hfits,
    ← State.holding_bigEndian64, bigEndian64_or _ _ hlow]
  rfl

theorem initial_prf (key : PrfKey) (len : Nat) :
    (prf key len).initial = Prf.initialState key len := by
  have hbytes : (prf key len).bytes =
      ((#v[0x80, 0x80, 0x8c, 0x00] : Vector UInt8 4) ++ bigEndian32 (boundOutputBits len) ++ key ++
        (Vector.replicate 16 0 : Vector UInt8 16)).toList := by
    rw [Vector.toList_append, Vector.toList_append, Vector.toList_append, Vector.toList_replicate,
      bytes, body, List.append_assoc, List.append_assoc]
    rfl
  rw [initial, hbytes]
  rfl

theorem initial_prfShort (key : PrfKey) {data : Bytes} (h : data.length ≤ prfShortMaxInput) :
    (prfShort key data h).initial = .holding 0 (Prf.shortBytes key data) := by
  have hkey : key.toList.length = 16 := Vector.length_toList
  have hfits : (Prf.shortBytes key data).length + (16 - data.length) ≤ 40 := by
    rw [prfShortMaxInput] at h
    rw [Prf.shortBytes, List.length_append, List.length_append, hkey]
    simp only [List.length_cons, List.length_nil]
    omega
  rw [← State.holding_append_zeros hfits, initial, bytes, body, Prf.shortBytes, List.append_assoc,
    List.append_assoc]
  rfl

theorem begins (s : Start) : s.Begins := by
  cases s with
  | aead v key nonce => exact setUp_of_bytes v.wellFormed rfl
  | authenticate v key nonce => exact setUp_of_bytes v.authParameters_wellFormed rfl
  | stream v key tag => exact setUp_of_bytes v.streamParameters_wellFormed rfl
  | xof v len => exact congrArg Sponge.begin (initial_xof v len).symm
  | prf key len => exact congrArg Sponge.begin (initial_prf key len).symm
  | prfShort key data h =>
    intro len hlen
    rw [Prf.prfShort_of_le key h hlen, initial_prfShort]

end Start

/-! ### Sponges with a bound output length -/

theorem Sponge.begin_inj {s t : State} : Sponge.begin s = .begin t ↔ s.permute12 = t.permute12 := by
  simp [Sponge.begin]

theorem Xof.withOutputLen_inj {v : HashVariant} {m n : Nat} :
    (withOutputLen m : Xof v) = withOutputLen n ↔ boundLength m = boundLength n := by
  constructor
  · intro h
    have hm : (withOutputLen m : Xof v).sponge = _ := (Start.xof v m).begins
    have hn : (withOutputLen n : Xof v).sponge = _ := (Start.xof v n).begins
    rw [h, hn, Sponge.begin_inj, Start.permuted_eq_iff] at hm
    exact ((Start.xof.injEq ..).mp hm).2.symm
  · intro h
    rw [withOutputLen, withOutputLen, boundOutputBits_inj.2 h]

theorem Prf.withOutputLen_inj {key : PrfKey} {m n : Nat} :
    withOutputLen key m = withOutputLen key n ↔ boundLength m = boundLength n := by
  constructor
  · intro h
    have hm : (withOutputLen key m).sponge = _ := (Start.prf key m).begins
    have hn : (withOutputLen key n).sponge = _ := (Start.prf key n).begins
    rw [h, hn, Sponge.begin_inj, Start.permuted_eq_iff] at hm
    exact ((Start.prf.injEq ..).mp hm).2.symm
  · intro h
    rw [withOutputLen, withOutputLen, initialState, initialState, boundOutputBits_inj.2 h]

/-- The output length goes into the lower half of the initial value, and no further. -/
theorem Xof.toNat_iv (v : HashVariant) (len : Nat) :
    (withOutputLen len : Xof v).iv.toNat = v.iv.toNat + 8 * boundLength len := by
  have hfits : (boundOutputBits len).toNat < 2 ^ 32 := UInt32.toNat_lt _
  obtain ⟨upper, hupper⟩ : ∃ upper, v.iv.toNat = 2 ^ 32 * upper := by
    cases v
    · exact ⟨0x00400c00, rfl⟩
    · exact ⟨0x00400c04, rfl⟩
  have hiv : (withOutputLen len : Xof v).iv = v.iv ||| (boundOutputBits len).toUInt64 := rfl
  rw [hiv, UInt64.toNat_or, UInt32.toNat_toUInt64, hupper,
    ← Nat.two_pow_add_eq_or_of_lt hfits, toNat_boundOutputBits]

/-! ### Separation -/

/-- No two modes start from the same state, and no mode starts from the same state with different
    parameters, where an output length counts as it is bound. The same holds behind the first
    permutation. In particular sponges are equal when they are started only if the same length is
    bound, a bound length always fits, and the two passes of misuse-resistant encryption have
    nothing in common. -/
theorem starts_separated :
    (∀ s : Start, s.Begins) ∧
    (∀ s t : Start, s.initial = t.initial ↔ s.bound = t.bound) ∧
    (∀ s t : Start, s.initial.permute12 = t.initial.permute12 ↔ s.bound = t.bound) ∧
    (∀ (v : HashVariant) (m n : Nat),
      (Xof.withOutputLen m : Xof v) = .withOutputLen n ↔ boundLength m = boundLength n) ∧
    (∀ (key : PrfKey) (m n : Nat),
      Prf.withOutputLen key m = .withOutputLen key n ↔ boundLength m = boundLength n) ∧
    (∀ len, (boundOutputBits len).toNat = 8 * boundLength len) ∧
    (∀ (v : HashVariant) (len : Nat),
      (Xof.withOutputLen len : Xof v).iv.toNat = v.iv.toNat + 8 * boundLength len) ∧
    (∀ v : HashVariant, (Xof.new : Xof v) = .withOutputLen 0 ∧
      (Hash.new : Hash v).xof = .withOutputLen digestBytes) ∧
    ∀ (v : Siv.Variant) (key : Vector UInt8 v.keySize) (nonce : Nonce) (tag : Tag),
      (Start.stream v key tag).initial ≠ (Start.authenticate v key nonce).initial := by
  refine ⟨Start.begins, Start.initial_eq_iff, Start.permuted_eq_iff,
    fun _ _ _ => Xof.withOutputLen_inj, fun _ _ _ => Prf.withOutputLen_inj,
    toNat_boundOutputBits, Xof.toNat_iv, fun v => ⟨?_, rfl⟩, fun v key nonce tag h => ?_⟩
  · cases v <;> rfl
  · have hbound := (Start.initial_eq_iff _ _).1 h
    cases hbound

end Ascon
