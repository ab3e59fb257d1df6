import Ascon.Proofs.State.Window
import Mathlib.Data.Finite.Prod
import Mathlib.Data.FinEnum
import Mathlib.Logic.Function.Iterate

/-! # The permutation loses nothing

  Every layer of a round can be undone, and so can every number of rounds. As
  there are only finitely many states, each of them is reached.

  - Turning a word is an action of the numbers modulo 64. So the linear map
    `w + w^a + w^b` of one word, done twice, is `w + w^2a + w^2b`: the mixed
    terms cancel. Done 64 times it is the identity, whatever `a` and `b` are.
  - The gates are undone column by column. A column has five bits, and what the
    first of them was is a polynomial in what became of all five; the others
    follow by turning the column.
  - The other layers are their own inverses, or nearly so.
-/

namespace Ascon

/-! ### The linear map of one word -/

/-- To turn twice is to turn by the sum. -/
theorem rotateRight_rotateRight (w m n : UInt64) :
    rotateRight (rotateRight w m) n = rotateRight w (m + n) := by
  apply UInt64.toBitVec_inj.1
  ext i hi
  have hlt : (i + n.toNat) % 64 < 64 := Nat.mod_lt _ (by decide)
  have hsum : ((i + n.toNat) % 64 + m.toNat) % 64 = (i + (m + n).toNat) % 64 := by
    rw [UInt64.toNat_add]
    omega
  rw [getElem_rotateRight _ _ i hi, BitVec.getLsbD_eq_getElem hlt, getElem_rotateRight _ _ _ hlt,
    hsum, getElem_rotateRight _ _ i hi]

/-- To turn all the way round changes nothing. -/
theorem rotateRight_of_dvd (w : UInt64) {n : UInt64} (h : 64 ∣ n.toNat) :
    rotateRight w n = w := by
  apply UInt64.toBitVec_inj.1
  ext i hi
  have hround : (i + n.toNat) % 64 = i := by omega
  rw [getElem_rotateRight _ _ i hi, hround, BitVec.getLsbD_eq_getElem hi]

/-- The linear map of one word, done twice, has both rotations doubled. -/
theorem iterate_two_spread (a b : UInt64) : (spread a b)^[2] = spread (2 * a) (2 * b) := by
  funext w
  show spread a b (spread a b w) = spread (2 * a) (2 * b) w
  simp only [spread, rotateRight_xor, rotateRight_rotateRight, UInt64.two_mul, UInt64.add_comm b a]
  generalize rotateRight w a = wa
  generalize rotateRight w b = wb
  generalize rotateRight w (a + b) = wab
  generalize rotateRight w (a + a) = waa
  generalize rotateRight w (b + b) = wbb
  calc w ^^^ wa ^^^ wb ^^^ (wa ^^^ waa ^^^ wab) ^^^ (wb ^^^ wab ^^^ wbb)
      = w ^^^ waa ^^^ wbb ^^^ (wa ^^^ wa) ^^^ (wb ^^^ wb) ^^^ (wab ^^^ wab) := by ac_rfl
    _ = w ^^^ waa ^^^ wbb := by simp

/-- Done 64 times, the linear map of one word is the identity. -/
theorem iterate_spread (a b : UInt64) : (spread a b)^[64] = id := by
  have hround : ∀ n : UInt64, 64 ∣ (2 * (2 * (2 * (2 * (2 * (2 * n)))))).toNat := by
    intro n
    simp only [UInt64.toNat_mul, UInt64.reduceToNat]
    omega
  -- the number of times is doubled six times, and the rotations with it
  have hdouble : (spread a b)^[64] = (spread a b)^[2 * 2 * 2 * 2 * 2 * 2] := rfl
  rw [hdouble]
  simp only [Function.iterate_mul, iterate_two_spread]
  funext w
  rw [spread, rotateRight_of_dvd w (hround a), rotateRight_of_dvd w (hround b), UInt64.xor_self,
    UInt64.zero_xor]
  rfl

theorem spread_injective (a b : UInt64) : Function.Injective (spread a b) := by
  have hinverse : Function.LeftInverse (spread a b)^[63] (spread a b) :=
    fun w => congrFun (iterate_spread a b) w
  exact hinverse.injective

namespace State

/-! ### The gates -/

/-- What the first of five words was, from what became of all five behind the gates. -/
def unchiWord (y0 y1 y2 y3 y4 : UInt64) : UInt64 :=
  y0 ^^^ (~~~y1 &&& (y2 ^^^ (~~~y3 &&& (y4 ^^^ (~~~y0 &&& (y1 ^^^ (~~~y2 &&& y3)))))))

theorem unchiWord_chi (x0 x1 x2 x3 x4 : UInt64) :
    unchiWord (x0 ^^^ (~~~x1 &&& x2)) (x1 ^^^ (~~~x2 &&& x3)) (x2 ^^^ (~~~x3 &&& x4))
      (x3 ^^^ (~~~x4 &&& x0)) (x4 ^^^ (~~~x0 &&& x1)) = x0 := by
  apply UInt64.toBitVec_inj.1
  ext i hi
  simp only [unchiWord, UInt64.toBitVec_xor, UInt64.toBitVec_and, UInt64.toBitVec_not,
    BitVec.getElem_xor, BitVec.getElem_and, BitVec.getElem_not]
  -- one column, of which there are thirty-two
  generalize x0.toBitVec[i] = b0, x1.toBitVec[i] = b1, x2.toBitVec[i] = b2,
    x3.toBitVec[i] = b3, x4.toBitVec[i] = b4
  revert b0 b1 b2 b3 b4
  decide

/-- The state in front of the gates, from the one behind them. -/
def unchi (s : State) : State :=
  ⟨unchiWord s.x0 s.x1 s.x2 s.x3 s.x4, unchiWord s.x1 s.x2 s.x3 s.x4 s.x0,
    unchiWord s.x2 s.x3 s.x4 s.x0 s.x1, unchiWord s.x3 s.x4 s.x0 s.x1 s.x2,
    unchiWord s.x4 s.x0 s.x1 s.x2 s.x3⟩

theorem unchi_chi (s : State) : s.chi.unchi = s := by
  ext1 <;> exact unchiWord_chi _ _ _ _ _

theorem chi_injective : Function.Injective chi :=
  Function.LeftInverse.injective unchi_chi

/-! ### The other layers -/

theorem addConstant_injective (c : UInt64) : Function.Injective (addConstant c) := by
  have hinverse : Function.LeftInverse (addConstant c) (addConstant c) := by
    intro s
    ext1 <;> simp [addConstant]
  exact hinverse.injective

theorem complementMiddle_injective : Function.Injective complementMiddle := by
  have hinverse : Function.LeftInverse complementMiddle complementMiddle := by
    intro s
    ext1 <;> simp [complementMiddle]
  exact hinverse.injective

/-- The state in front of `mixIn`, from the one behind it. -/
def unmixIn (s : State) : State :=
  { s with x0 := s.x0 ^^^ (s.x4 ^^^ s.x3), x4 := s.x4 ^^^ s.x3, x2 := s.x2 ^^^ s.x1 }

theorem mixIn_injective : Function.Injective mixIn := by
  have hinverse : Function.LeftInverse unmixIn mixIn := by
    intro s
    ext1 <;> simp [mixIn, unmixIn]
  exact hinverse.injective

/-- The state in front of `mixOut`, from the one behind it. -/
def unmixOut (s : State) : State :=
  { s with x0 := s.x0 ^^^ s.x4, x1 := s.x1 ^^^ (s.x0 ^^^ s.x4), x3 := s.x3 ^^^ s.x2 }

theorem mixOut_injective : Function.Injective mixOut := by
  have hinverse : Function.LeftInverse unmixOut mixOut := by
    intro s
    ext1 <;> simp [mixOut, unmixOut]
  exact hinverse.injective

theorem diffuse_injective : Function.Injective diffuse := by
  intro s t h
  simp only [diffuse, State.mk.injEq] at h
  obtain ⟨h0, h1, h2, h3, h4⟩ := h
  ext1
  · exact spread_injective _ _ h0
  · exact spread_injective _ _ h1
  · exact spread_injective _ _ h2
  · exact spread_injective _ _ h3
  · exact spread_injective _ _ h4

/-! ### Rounds -/

theorem round_injective (r : Nat) : Function.Injective (round r) := by
  have hin : Function.Injective fun s : State => (s.addConstant (roundConstant r)).mixIn :=
    mixIn_injective.comp (addConstant_injective _)
  have hout : Function.Injective fun s : State => s.mixOut.complementMiddle.diffuse :=
    diffuse_injective.comp (complementMiddle_injective.comp mixOut_injective)
  exact hout.comp (chi_injective.comp hin)

theorem lastRounds_injective (n : Nat) : Function.Injective (lastRounds n) := by
  induction n with
  | zero => exact Function.injective_id
  | succ n ih => exact ih.comp (round_injective _)

/-- There are finitely many states. -/
instance finiteState : Finite State := by
  let words : State → UInt64 × UInt64 × UInt64 × UInt64 × UInt64 :=
    fun s => (s.x0, s.x1, s.x2, s.x3, s.x4)
  have hwords : Function.Injective words := by
    intro s t h
    simp only [words, Prod.mk.injEq] at h
    obtain ⟨h0, h1, h2, h3, h4⟩ := h
    exact State.ext h0 h1 h2 h3 h4
  exact Finite.of_injective words hwords

theorem lastRounds_bijective (n : Nat) : Function.Bijective (lastRounds n) :=
  Finite.injective_iff_bijective.1 (lastRounds_injective n)

/-- The permutation is one: with every number of rounds that it has, it takes no two states to the
    same state, and it reaches every state. -/
theorem permute_bijective {rounds : Nat} (h : 1 ≤ rounds ∧ rounds ≤ maxRounds) :
    ∃ f : State → State, (∀ s : State, s.permute rounds = .ok (f s)) ∧ Function.Bijective f :=
  ⟨lastRounds rounds, fun s => s.permute_of_le h, lastRounds_bijective rounds⟩

theorem permute_bijective_eight :
    (1 ≤ 8 ∧ 8 ≤ maxRounds) ∧
      ∃ f : State → State, (∀ s : State, s.permute 8 = .ok (f s)) ∧ Function.Bijective f :=
  ⟨by decide, permute_bijective (by decide)⟩

end State

end Ascon
