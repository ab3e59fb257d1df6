import Ascon.Fault
import Ascon.State.Basic

/-! # The permutation

  Twelve rounds, of which a caller runs the last few. A round adds its
  constant, applies the substitution box to the 64 columns of the state, and
  diffuses each word.

  - The box works on all columns at once, with the words as operands. It is
    cut into three layers: `mixIn`, `chi` and `mixOut`. Only `chi` multiplies
    bits; the others are linear, apart from the constant and the complement.
    The cut is where a masked state has to part ways with a plain one.
  - `lastRounds` counts down: running the last `n + 1` rounds is running round
    `11 - n` and then the last `n`.
-/

namespace Ascon

/-! ### Words -/

/-- Turns a word to the right by `n` bits. -/
def rotateRight (w n : UInt64) : UInt64 := (w >>> n) ||| (w <<< (64 - n))

/-- Bit `i` of a turned word is bit `i + n` of the word, counted round the end. -/
theorem getElem_rotateRight (w n : UInt64) (i : Nat) (hi : i < 64) :
    (rotateRight w n).toBitVec[i] = w.toBitVec.getLsbD ((i + n.toNat) % 64) := by
  have hdown : (n.toBitVec % 64#64).toNat = n.toNat % 64 := by
    simp
  have hup : ((64 - n).toBitVec % 64#64).toNat = (64 - n.toNat % 64) % 64 := by
    have hlt := n.toNat_lt
    simp only [BitVec.toNat_umod, UInt64.toNat_toBitVec, UInt64.toNat_sub, UInt64.reduceToNat,
      BitVec.toNat_ofNat, Nat.reducePow, Nat.reduceMod]
    omega
  have hmod : (i + n.toNat) % 64 = (i + n.toNat % 64) % 64 := by omega
  rw [rotateRight, UInt64.toBitVec_or, UInt64.toBitVec_shiftRight, UInt64.toBitVec_shiftLeft,
    ← BitVec.getLsbD_eq_getElem, BitVec.getLsbD_or, BitVec.ushiftRight_eq',
    BitVec.shiftLeft_eq', BitVec.getLsbD_ushiftRight, BitVec.getLsbD_shiftLeft, hmod]
  simp only [BitVec.ofNat_eq_ofNat, hdown, hup, hi, decide_true, Bool.true_and]
  -- only what is left over beyond full turns matters
  have hlt : n.toNat % 64 < 64 := Nat.mod_lt _ (by decide)
  generalize n.toNat % 64 = m at hlt ⊢
  cases m with
  | zero => simp [Nat.mod_eq_of_lt hi]
  | succ m =>
    have hpart : (64 - (m + 1)) % 64 = 64 - (m + 1) := by omega
    rw [hpart]
    by_cases hlow : i < 64 - (m + 1)
    · -- the bit comes from the part that was shifted down
      have hpos : (i + (m + 1)) % 64 = m + 1 + i := by omega
      simp only [hlow, hpos, decide_true, Bool.not_true, Bool.false_and, Bool.or_false]
    · -- the bit was shifted out at the end and comes in at the top
      have hpos : (i + (m + 1)) % 64 = i - (64 - (m + 1)) := by omega
      simp only [hlow, hpos, decide_false, Bool.not_false, Bool.true_and]
      rw [BitVec.getLsbD_of_ge _ _ (by omega), Bool.false_or]

/-- Turning is additive. -/
theorem rotateRight_xor (v w n : UInt64) :
    rotateRight (v ^^^ w) n = rotateRight v n ^^^ rotateRight w n := by
  apply UInt64.toBitVec_inj.1
  ext i hi
  simp only [UInt64.toBitVec_xor, BitVec.getElem_xor, getElem_rotateRight _ _ i hi,
    BitVec.getLsbD_xor]

/-- The linear map of one word: the word combined with two rotations of itself. -/
def spread (a b w : UInt64) : UInt64 := w ^^^ rotateRight w a ^^^ rotateRight w b

/-- The linear map of one word is additive. -/
theorem spread_xor (a b v w : UInt64) :
    spread a b (v ^^^ w) = spread a b v ^^^ spread a b w := by
  simp only [spread, rotateRight_xor]
  ac_rfl

/-- The constant of round `r`: the high half counts down and the low half counts up. -/
def roundConstant (r : Nat) : UInt64 := (((15 - r) <<< 4) ||| r).toUInt64

namespace State

/-! ### The layers of a round -/

/-- Adds a constant to the middle word. -/
def addConstant (c : UInt64) (s : State) : State := { s with x2 := s.x2 ^^^ c }

/-- The linear layer in front of the gates. -/
def mixIn (s : State) : State :=
  { s with x0 := s.x0 ^^^ s.x4, x4 := s.x4 ^^^ s.x3, x2 := s.x2 ^^^ s.x1 }

/-- The five gates, each on a word and its right neighbour: the complement of the one, and the
other. -/
def gates (s : State) : State :=
  ⟨~~~s.x0 &&& s.x1, ~~~s.x1 &&& s.x2, ~~~s.x2 &&& s.x3, ~~~s.x3 &&& s.x4, ~~~s.x4 &&& s.x0⟩

/-- Moves every word one place to the left, the first one to the end. -/
def shiftWords (s : State) : State := ⟨s.x1, s.x2, s.x3, s.x4, s.x0⟩

/-- Combines each word with the gate of its right neighbour. -/
def chi (s : State) : State := s ^^^ s.gates.shiftWords

/-- The linear layer behind the gates. -/
def mixOut (s : State) : State :=
  { s with x1 := s.x1 ^^^ s.x0, x0 := s.x0 ^^^ s.x4, x3 := s.x3 ^^^ s.x2 }

/-- Complements the middle word. -/
def complementMiddle (s : State) : State := { s with x2 := ~~~s.x2 }

/-- Diffuses every word, each with rotations of its own. -/
def diffuse (s : State) : State :=
  ⟨spread 19 28 s.x0, spread 61 39 s.x1, spread 1 6 s.x2, spread 10 17 s.x3, spread 7 41 s.x4⟩

/-! ### The linear layers are additive -/

theorem mixIn_xor (s t : State) : (s ^^^ t).mixIn = s.mixIn ^^^ t.mixIn := by
  ext1 <;> simp only [mixIn, xor_x0, xor_x1, xor_x2, xor_x3, xor_x4] <;> ac_rfl

theorem mixOut_xor (s t : State) : (s ^^^ t).mixOut = s.mixOut ^^^ t.mixOut := by
  ext1 <;> simp only [mixOut, xor_x0, xor_x1, xor_x2, xor_x3, xor_x4] <;> ac_rfl

theorem shiftWords_xor (s t : State) :
    (s ^^^ t).shiftWords = s.shiftWords ^^^ t.shiftWords := rfl

theorem diffuse_xor (s t : State) : (s ^^^ t).diffuse = s.diffuse ^^^ t.diffuse := by
  ext1 <;> exact spread_xor _ _ _ _

/-! ### Rounds -/

/-- Round `r` of the permutation. -/
def round (r : Nat) (s : State) : State :=
  (s.addConstant (roundConstant r)).mixIn.chi.mixOut.complementMiddle.diffuse

/-- The last `n` rounds of the permutation. -/
def lastRounds : Nat → State → State
  | 0, s => s
  | n + 1, s => lastRounds n (s.round (maxRounds - 1 - n))

/-- The permutation with all its rounds. -/
def permute12 (s : State) : State := s.lastRounds 12

/-- The permutation with its last eight rounds. -/
def permute8 (s : State) : State := s.lastRounds 8

/-- The permutation with its last six rounds. -/
def permute6 (s : State) : State := s.lastRounds 6

end State

/-- Refuses a number of rounds that the permutation does not have. -/
def checkRounds (count : Nat) : Except Fault Unit :=
  if 1 ≤ count ∧ count ≤ maxRounds then .ok () else .error (.rounds count)

theorem checkRounds_of_le {count : Nat} (h : 1 ≤ count ∧ count ≤ 12) :
    checkRounds count = .ok () := if_pos h

/-- The last `rounds` rounds of the permutation, if it has that many. -/
def State.permute (s : State) (rounds : Nat) : Except Fault State := do
  checkRounds rounds
  return s.lastRounds rounds

end Ascon
