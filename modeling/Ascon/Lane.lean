/-! # Lanes of a word

  The eight bytes of a 64-bit word, counted from the most significant one.
  `Lane.get` reads a lane, `Lane.add` combines a byte into a lane and
  `Lane.put` replaces a lane. All three work by shifting and masking, and the
  lemmas below say that the lanes of a word do not disturb each other.
-/

namespace Ascon

/-- A byte string of any length. -/
abbrev Bytes := List UInt8

namespace Lane

/-- The number of bits below lane `k` of a word. -/
def shift (k : Nat) : UInt64 := (56 - 8 * k).toUInt64

/-- The byte in lane `k` of a word. -/
def get (w : UInt64) (k : Nat) : UInt8 := (w >>> shift k).toUInt8

/-- Combines a byte into lane `k` of a word by exclusive or. -/
def add (w : UInt64) (k : Nat) (b : UInt8) : UInt64 := w ^^^ (b.toUInt64 <<< shift k)

/-- Replaces lane `k` of a word by a byte. -/
def put (w : UInt64) (k : Nat) (b : UInt8) : UInt64 :=
  (w &&& ~~~(0xff <<< shift k)) ||| (b.toUInt64 <<< shift k)

/-! ### The bits of a lane -/

theorem toNat_shift_mod {k : Nat} (hk : k < 8) : (shift k).toNat % 64 = 56 - 8 * k := by
  simp [shift]; omega

/-- Bit `i` of lane `k` is bit `56 - 8 k + i` of the word. -/
theorem getElem_get (w : UInt64) {k : Nat} (hk : k < 8) (i : Nat) (hi : i < 8) :
    (get w k).toBitVec[i] = w.toBitVec[56 - 8 * k + i] := by
  have hs := toNat_shift_mod hk
  simp only [get, UInt64.toBitVec_toUInt8, BitVec.getElem_setWidth, UInt64.toBitVec_shiftRight,
    BitVec.ushiftRight_eq', BitVec.getLsbD_ushiftRight, BitVec.toNat_umod, UInt64.toNat_toBitVec,
    BitVec.ofNat_eq_ofNat, BitVec.toNat_ofNat, Nat.reducePow, Nat.reduceMod]
  rw [hs, BitVec.getLsbD_eq_getElem (by omega)]

/-- A byte that is moved up to lane `k` has its bits there and nowhere else. -/
theorem getElem_shiftLeft (b : UInt8) {k : Nat} (hk : k < 8) (i : Nat) (hi : i < 64) :
    (b.toUInt64 <<< shift k).toBitVec[i] =
      (decide (56 - 8 * k ≤ i) && b.toBitVec.getLsbD (i - (56 - 8 * k))) := by
  have hs := toNat_shift_mod hk
  simp [hs]
  congr 1
  rw [← decide_not, decide_eq_decide]
  omega

/-! ### Lanes do not disturb each other -/

/-- A lane that is combined with a byte holds the sum, and the other lanes are untouched. -/
theorem get_add (w : UInt64) (b : UInt8) {j k : Nat} (hj : j < 8) (hk : k < 8) :
    get (add w k b) j = if j = k then get w j ^^^ b else get w j := by
  apply UInt8.toBitVec_inj.1
  ext i hi
  rw [getElem_get _ hj i hi, add, UInt64.toBitVec_xor, BitVec.getElem_xor,
    getElem_shiftLeft b hk]
  by_cases h : j = k
  · subst h
    simp [getElem_get w hj i hi, BitVec.getLsbD_eq_getElem hi]
  · rw [if_neg h, getElem_get w hj i hi]
    by_cases hle : 56 - 8 * k ≤ 56 - 8 * j + i
    · -- the two lanes are at least eight bits apart
      rw [BitVec.getLsbD_of_ge b.toBitVec _ (by omega)]; simp
    · simp [hle]

/-- A lane that is replaced holds the new byte, and the other lanes are untouched. -/
theorem get_put (w : UInt64) (b : UInt8) {j k : Nat} (hj : j < 8) (hk : k < 8) :
    get (put w k b) j = if j = k then b else get w j := by
  have hff : (0xff : UInt64) = (0xff : UInt8).toUInt64 := rfl
  apply UInt8.toBitVec_inj.1
  ext i hi
  rw [getElem_get _ hj i hi, put, hff, UInt64.toBitVec_or, BitVec.getElem_or,
    UInt64.toBitVec_and, BitVec.getElem_and, UInt64.toBitVec_not, BitVec.getElem_not,
    getElem_shiftLeft b hk, getElem_shiftLeft 0xff hk]
  by_cases h : j = k
  · subst h
    have ones : ∀ i : Fin 8, (255#8).getLsbD i = true := by decide
    simp [ones ⟨i, hi⟩, BitVec.getLsbD_eq_getElem hi]
  · rw [if_neg h, getElem_get w hj i hi]
    by_cases hle : 56 - 8 * k ≤ 56 - 8 * j + i
    · rw [BitVec.getLsbD_of_ge b.toBitVec _ (by omega), BitVec.getLsbD_of_ge _ _ (by omega)]; simp
    · simp [hle]

/-- A word is determined by its eight lanes. -/
theorem ext {v w : UInt64} (h : ∀ k < 8, get v k = get w k) : v = w := by
  apply UInt64.toBitVec_inj.1
  ext i hi
  have hk : 7 - i / 8 < 8 := by omega
  have hb := congrArg (fun b : UInt8 => b.toBitVec[i % 8]) (h _ hk)
  simp only [getElem_get _ hk (i % 8) (Nat.mod_lt _ (by decide))] at hb
  have hpos : 56 - 8 * (7 - i / 8) + i % 8 = i := by omega
  simpa only [hpos] using hb

end Lane

/-- The four bytes of a word, most significant first. -/
def bigEndian32 (w : UInt32) : Vector UInt8 4 :=
  Vector.ofFn fun i => (w >>> (24 - 8 * i.val).toUInt32).toUInt8

/-- The eight bytes of a word, most significant first. -/
def bigEndian64 (w : UInt64) : Vector UInt8 8 :=
  Vector.ofFn fun i => Lane.get w i

end Ascon
