import Ascon.Proofs.State.Window
import Mathlib.Data.Fin.VecNotation
import Mathlib.Logic.Equiv.Defs

/-! # The permutation bit by bit

  On paper, the permutation is given by what becomes of single bits. A round adds
  a number to the middle row, looks up every column of five bits in a table, and
  combines every bit of a row with two others of the same row. The words of a
  state never appear.

  - `Bits` is a state as rows of bits, and `State.bits` is the view of a state as
    such. No state is lost in it and none is missing.
  - Each layer of a round is compared by itself. Only the box takes more than one
    word at a time, and there it is enough to look at one column.
  - The rounds of a shorter permutation are the last ones of a longer one.
-/

namespace Ascon

/-- The bits of a state: row `i` holds the bits of word `i`, the least significant one first. -/
abbrev Bits := Fin 5 → Fin 64 → Bool

namespace Bits

/-- Two states of bits are the same if their rows are. -/
theorem ext_rows {b c : Bits} (h0 : ∀ k, b 0 k = c 0 k) (h1 : ∀ k, b 1 k = c 1 k)
    (h2 : ∀ k, b 2 k = c 2 k) (h3 : ∀ k, b 3 k = c 3 k) (h4 : ∀ k, b 4 k = c 4 k) : b = c := by
  funext i k
  rcases i with ⟨_ | _ | _ | _ | _ | i, hi⟩
  · exact h0 k
  · exact h1 k
  · exact h2 k
  · exact h3 k
  · exact h4 k
  · omega

/-! ### The layers on paper -/

/-- Adds the bits of a number to the middle row. -/
def addConstant (n : Nat) (b : Bits) : Bits :=
  fun i k => if i = 2 then b i k ^^ n.testBit k else b i k

/-- The number that is written in a column, the most significant bit first. -/
def columnNumber (b0 b1 b2 b3 b4 : Bool) : Nat :=
  16 * b0.toNat + 8 * b1.toNat + 4 * b2.toNat + 2 * b3.toNat + b4.toNat

/-- The substitution box: what takes the place of each of the numbers below 32. -/
def box : List Nat :=
  [4, 11, 31, 20, 26, 21, 9, 2, 27, 5, 8, 18, 29, 3, 6, 28,
    30, 19, 7, 14, 0, 13, 17, 24, 16, 12, 1, 25, 22, 10, 15, 23]

/-- Looks up every column in the box. -/
def substitute (b : Bits) : Bits := fun i k =>
  (box.getD (columnNumber (b 0 k) (b 1 k) (b 2 k) (b 3 k) (b 4 k)) 0).testBit (4 - i)

/-- How far apart the bits are that are combined, for each row. -/
def distances : Fin 5 → Fin 64 × Fin 64 :=
  ![(19, 28), (61, 39), (1, 6), (10, 17), (7, 41)]

/-- Combines every bit with two others of its row, counted round the end. -/
def diffuse (b : Bits) : Bits := fun i k =>
  b i k ^^ b i (k + (distances i).1) ^^ b i (k + (distances i).2)

/-- Round `r` of the permutation. -/
def round (r : Nat) (b : Bits) : Bits := (b.addConstant (16 * (15 - r) + r)).substitute.diffuse

/-- The `count` rounds from round `first` on, one after the other. -/
def rounds (first count : Nat) (b : Bits) : Bits :=
  (List.range' first count).foldl (fun b r => b.round r) b

theorem rounds_succ (first count : Nat) (b : Bits) :
    rounds first (count + 1) b = rounds (first + 1) count (b.round first) := by
  rw [rounds, List.range'_succ, List.foldl_cons, rounds]

/-- More rounds are rounds after rounds. -/
theorem rounds_add (first m n : Nat) (b : Bits) :
    rounds first (m + n) b = rounds (first + m) n (rounds first m b) := by
  have hsplit : List.range' first (m + n) = List.range' first m ++ List.range' (first + m) n := by
    rw [List.range'_append_1]
  rw [rounds, hsplit, List.foldl_append, rounds, rounds]

/-- What the gates, with the linear layers around them, make of one column. -/
def gated (b0 b1 b2 b3 b4 : Bool) : Fin 5 → Bool :=
  let x0 := b0 ^^ b4
  let x2 := b2 ^^ b1
  let x4 := b4 ^^ b3
  let z0 := x0 ^^ (!b1 && x2)
  let z1 := b1 ^^ (!x2 && b3)
  let z2 := x2 ^^ (!b3 && x4)
  let z3 := b3 ^^ (!x4 && x0)
  let z4 := x4 ^^ (!x0 && b1)
  ![z0 ^^ z4, z1 ^^ z0, !z2, z3 ^^ z2, z4]

/-- On one column the gates compute the box. There are thirty-two columns. -/
theorem testBit_box (b0 b1 b2 b3 b4 : Bool) (i : Fin 5) :
    (box.getD (columnNumber b0 b1 b2 b3 b4) 0).testBit (4 - i) = gated b0 b1 b2 b3 b4 i := by
  revert b0 b1 b2 b3 b4 i
  decide

end Bits

/-! ### Rows and words -/

/-- The word with the given bits, the least significant one first. -/
def wordOfRow (row : Fin 64 → Bool) : UInt64 :=
  ⟨(BitVec.ofBoolListLE (List.ofFn row)).cast List.length_ofFn⟩

theorem getElem_wordOfRow (row : Fin 64 → Bool) (k : Fin 64) :
    (wordOfRow row).toBitVec[k] = row k := by
  show ((BitVec.ofBoolListLE (List.ofFn row)).cast List.length_ofFn)[k.val] = row k
  have hk : k.val < (List.ofFn row).length := by
    rw [List.length_ofFn]
    exact k.isLt
  rw [BitVec.getElem_cast, ← BitVec.getLsbD_eq_getElem, BitVec.getLsbD_ofBoolListLE,
    List.getD_eq_getElem?_getD, List.getElem?_eq_getElem hk, List.getElem_ofFn]
  rfl

theorem wordOfRow_getElem (w : UInt64) : wordOfRow (fun k => w.toBitVec[k]) = w := by
  apply UInt64.toBitVec_inj.1
  ext k hk
  exact getElem_wordOfRow _ ⟨k, hk⟩

namespace State

/-- The bits of a state, from which the state can be put together again. -/
def bits : State ≃ Bits where
  toFun s i k := (s.word i).toBitVec[k]
  invFun b := ⟨wordOfRow (b 0), wordOfRow (b 1), wordOfRow (b 2), wordOfRow (b 3), wordOfRow (b 4)⟩
  left_inv s := by
    ext1 <;> exact wordOfRow_getElem _
  right_inv b := by
    apply Bits.ext_rows <;> exact getElem_wordOfRow _

theorem bits_apply (s : State) (i : Fin 5) (k : Fin 64) : bits s i k = (s.word i).toBitVec[k] := rfl

/-! ### The layers of a round -/

theorem bits_addConstant (s : State) {r : Nat} (h : r < maxRounds) :
    bits (s.addConstant (roundConstant r)) = (bits s).addConstant (16 * (15 - r) + r) := by
  have hconstant : ((15 - r) <<< 4) ||| r = 16 * (15 - r) + r := by
    revert r
    decide
  have hbit : ∀ k : Fin 64, (roundConstant r).toBitVec[k.val] = (16 * (15 - r) + r).testBit k := by
    intro k
    rw [roundConstant, hconstant, ← BitVec.getLsbD_eq_getElem]
    show (BitVec.ofNat 64 _).getLsbD k = _
    rw [BitVec.getLsbD_ofNat, decide_eq_true k.isLt, Bool.true_and]
  apply Bits.ext_rows
  · exact fun _ => rfl
  · exact fun _ => rfl
  · intro k
    show (s.x2 ^^^ roundConstant r).toBitVec[k.val] = _
    rw [UInt64.toBitVec_xor, BitVec.getElem_xor, hbit]
    rfl
  · exact fun _ => rfl
  · exact fun _ => rfl

theorem bits_box (s : State) : bits s.mixIn.chi.mixOut.complementMiddle = (bits s).substitute := by
  apply Bits.ext_rows <;>
  · intro k
    rw [Bits.substitute, Bits.testBit_box]
    simp [bits_apply, word, mixIn, chi, gates, shiftWords, mixOut, complementMiddle, Bits.gated]

end State

/-- Bit `k` of a word that has been diffused. -/
theorem getElem_spread {a b : UInt64} {m n : Fin 64} (ha : a.toNat = m) (hb : b.toNat = n)
    (w : UInt64) (k : Fin 64) :
    (spread a b w).toBitVec[k] = (w.toBitVec[k] ^^ w.toBitVec[k + m] ^^ w.toBitVec[k + n]) := by
  have hturned : ∀ {c : UInt64} {l : Fin 64}, c.toNat = l →
      (rotateRight w c).toBitVec[k.val] = w.toBitVec[(k + l).val] := by
    intro c l hc
    rw [getElem_rotateRight w c k k.isLt, hc, ← Fin.val_add, BitVec.getLsbD_eq_getElem]
  show (w ^^^ rotateRight w a ^^^ rotateRight w b).toBitVec[k.val] = _
  rw [UInt64.toBitVec_xor, UInt64.toBitVec_xor, BitVec.getElem_xor, BitVec.getElem_xor, hturned ha,
    hturned hb]
  rfl

namespace State

theorem bits_diffuse (s : State) : bits s.diffuse = (bits s).diffuse := by
  apply Bits.ext_rows <;> exact getElem_spread rfl rfl _

/-! ### Rounds -/

theorem bits_round (s : State) {r : Nat} (h : r < maxRounds) :
    bits (s.round r) = (bits s).round r := by
  rw [round, bits_diffuse, bits_box, bits_addConstant s h, Bits.round]

/-- The last rounds of the permutation, in the order of their numbers. -/
theorem bits_lastRounds (s : State) {n : Nat} (h : n ≤ maxRounds) :
    bits (s.lastRounds n) = Bits.rounds (maxRounds - n) n (bits s) := by
  induction n generalizing s with
  | zero => rfl
  | succ n ih =>
    have hround : maxRounds - 1 - n < maxRounds := by
      rw [maxRounds]
      omega
    have hfirst : maxRounds - (n + 1) = maxRounds - 1 - n := by omega
    have hnext : maxRounds - 1 - n + 1 = maxRounds - n := by omega
    rw [lastRounds, ih _ (by omega), bits_round s hround, hfirst, Bits.rounds_succ, hnext]

/-- The permutation is, bit by bit, the composition of its last rounds, each of which adds its
    constant, looks up every column in the box and diffuses every row. So a shorter permutation
    does what is left of a longer one behind the rounds that it lacks. -/
theorem permute_bitwise (s : State) {rounds : Nat} (h : 1 ≤ rounds ∧ rounds ≤ maxRounds) :
    s.permute rounds = .ok (bits.symm (Bits.rounds (maxRounds - rounds) rounds (bits s))) ∧
      ∀ k, 1 ≤ k → k < rounds →
        (bits.symm (Bits.rounds (maxRounds - rounds) (rounds - k) (bits s))).permute k =
          s.permute rounds := by
  have hwhole : s.lastRounds rounds =
      bits.symm (Bits.rounds (maxRounds - rounds) rounds (bits s)) := by
    rw [← bits_lastRounds s h.2, Equiv.symm_apply_apply]
  refine ⟨by rw [s.permute_of_le h, hwhole], ?_⟩
  intro k hk hlt
  have hkept : k ≤ maxRounds := by omega
  have hcount : rounds = rounds - k + k := by omega
  have hfirst : maxRounds - rounds + (rounds - k) = maxRounds - k := by omega
  rw [permute_of_le _ ⟨hk, hkept⟩, s.permute_of_le h]
  congr 1
  apply bits.injective
  rw [bits_lastRounds _ hkept, bits_lastRounds s h.2, Equiv.apply_symm_apply, ← hfirst,
    ← Bits.rounds_add, ← hcount]

/-- The state whose bytes count from 0 to 39. -/
def counting : State :=
  ⟨0x0001020304050607, 0x08090a0b0c0d0e0f, 0x1011121314151617, 0x18191a1b1c1d1e1f,
    0x2021222324252627⟩

theorem permute_bitwise_eight :
    (1 ≤ 8 ∧ 8 ≤ maxRounds) ∧
      counting.permute 8 = .ok (bits.symm (Bits.rounds 4 8 (bits counting))) ∧
        (1 ≤ 6 ∧ 6 < 8) ∧
          (bits.symm (Bits.rounds 4 2 (bits counting))).permute 6 = counting.permute 8 := by
  have h := permute_bitwise counting (show 1 ≤ 8 ∧ 8 ≤ maxRounds by decide)
  exact ⟨by decide, h.1, by decide, h.2 6 (by decide) (by decide)⟩

end State

end Ascon
