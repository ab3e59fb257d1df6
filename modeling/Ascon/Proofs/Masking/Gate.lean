import Ascon.Masking.Gate
import Ascon.Proofs.Agreement
import Ascon.Proofs.Masking.Sharing

/-! # The masked gate computes the gate

  For any number of shares and any random words, the shares that come out of
  the masked gate recombine to the value of the gate.

  - `combine_crossTerm` is one step of the gate: the random word goes into two
    shares and so leaves the shared value alone, and what is added to the value
    are the products of the two shares with one another.
  - `combine_crossTerms` is a run of such steps over any pairs of different
    shares.
  - Over the pairs `i < j`, and together with the products that are there from
    the start, these products are the product of the two sums.
-/

namespace Ascon.Masking

open Sharing XorGroup

variable {n : Nat}

/-! ### Conjunction and exclusive or -/

theorem and_xor_left (a b c : UInt64) : a &&& (b ^^^ c) = (a &&& b) ^^^ (a &&& c) := by
  apply UInt64.toBitVec_inj.1
  ext i hi
  simp only [UInt64.toBitVec_and, UInt64.toBitVec_xor, BitVec.getElem_and, BitVec.getElem_xor,
    Bool.and_xor_distrib_left]

theorem and_xor_right (a b c : UInt64) : (a ^^^ b) &&& c = (a &&& c) ^^^ (b &&& c) := by
  rw [UInt64.and_comm, and_xor_left, UInt64.and_comm c, UInt64.and_comm c]

/-- The product of two sums is the double sum of the products. -/
theorem sum_and_sum {ι : Type} (f g : ι → UInt64) (is js : List ι) :
    sum (is.map f) &&& sum (js.map g) =
      sum (is.map fun i => sum (js.map fun j => f i &&& g j)) := by
  have hrow : ∀ a : UInt64, sum (js.map fun j => a &&& g j) = a &&& sum (js.map g) := by
    intro a
    have h := sum_map (f := (a &&& ·)) (and_xor_left a) (js.map g)
    rwa [List.map_map] at h
  have hcol : ∀ c : UInt64, sum (is.map fun i => f i &&& c) = sum (is.map f) &&& c := by
    intro c
    have h := sum_map (f := (· &&& c)) (fun a b => and_xor_right a b c) (is.map f)
    rwa [List.map_map] at h
  simp only [hrow, hcol]

/-! ### One pair of shares -/

/-- The products of two different shares with one another. -/
def mixedProducts (a b : Sharing UInt64 n) (p : Fin n × Fin n) : UInt64 :=
  (a.get p.1 &&& b.get p.2) ^^^ (a.get p.2 &&& b.get p.1)

theorem combine_crossTerm (a b acc : Sharing UInt64 n) {i j : Fin n} (hij : i ≠ j) (r : UInt64) :
    combine (crossTerm a b acc i j r) = combine acc ^^^ mixedProducts a b (i, j) := by
  have hother : (acc.set i (acc.get i ^^^ r) i.isLt).get j = acc.get j := by
    have hne : i.val ≠ j.val := fun h => hij (Fin.ext h)
    simp [get_eq_getElem, hne]
  unfold crossTerm
  rw [combine_set, combine_set, hother, cancel_left, cancel_left, mixedProducts]
  -- the random word has gone into both shares
  simp only [XorGroup.xor_assoc, XorGroup.cancel_left]

/-- Any number of pairs, each under its own random word. -/
theorem combine_crossTerms (a b acc : Sharing UInt64 n)
    {steps : List ((Fin n × Fin n) × UInt64)} (h : ∀ step ∈ steps, step.1.1 ≠ step.1.2) :
    combine (steps.foldl (fun acc step => crossTerm a b acc step.1.1 step.1.2 step.2) acc) =
      combine acc ^^^ sum (steps.map fun step => mixedProducts a b step.1) := by
  induction steps generalizing acc with
  | nil => simp
  | cons step steps ih =>
    have hhead : step.1.1 ≠ step.1.2 := h step List.mem_cons_self
    have htail : ∀ step' ∈ steps, step'.1.1 ≠ step'.1.2 :=
      fun step' hmem => h step' (List.mem_cons_of_mem _ hmem)
    rw [List.foldl_cons, ih _ htail, combine_crossTerm a b acc hhead, List.map_cons, sum_cons,
      XorGroup.xor_assoc]

/-! ### All pairs of shares -/

theorem pairs_eq_ascending (n : Nat) : pairs n = ascending (List.finRange n) := rfl

theorem ne_of_mem_pairs {p : Fin n × Fin n} (h : p ∈ pairs n) : p.1 ≠ p.2 := by
  simp only [pairs, List.mem_flatMap, List.mem_map, List.mem_filter] at h
  obtain ⟨i, _, j, ⟨_, hlt⟩, rfl⟩ := h
  exact Fin.ne_of_lt (by simpa using hlt)

/-- The masked conjunction shares the conjunction, whatever the random words are. -/
theorem combine_andWith (words : Vector UInt64 (pairs n).length) (a b : Sharing UInt64 n) :
    combine (andWith words a b) = combine a &&& combine b := by
  -- there is a random word for every pair
  have hfst : ((pairs n).zip words.toList).map Prod.fst = pairs n :=
    List.map_fst_zip (by simp)
  have hne : ∀ step ∈ (pairs n).zip words.toList, step.1.1 ≠ step.1.2 :=
    fun step hmem => ne_of_mem_pairs (List.of_mem_zip hmem).1
  have hdiagonal : combine (Vector.zipWith (· &&& ·) a b) =
      sum ((List.finRange n).map fun i => a.get i &&& b.get i) := by
    rw [combine_eq_sum]
    congr 1
    apply List.map_congr_left
    intro i _
    simp [get_eq_getElem]
  have hmixed : sum (((pairs n).zip words.toList).map fun step => mixedProducts a b step.1) =
      sum ((ascending (List.finRange n)).map (mixedProducts a b)) := by
    have h := congrArg (List.map (mixedProducts a b)) hfst
    rw [List.map_map] at h
    rw [← pairs_eq_ascending]
    exact congrArg sum h
  calc combine (andWith words a b)
      = combine (Vector.zipWith (· &&& ·) a b) ^^^
          sum (((pairs n).zip words.toList).map fun step => mixedProducts a b step.1) :=
        combine_crossTerms a b _ hne
    _ = sum ((List.finRange n).map fun i =>
          sum ((List.finRange n).map fun j => a.get i &&& b.get j)) := by
        rw [hdiagonal, hmixed]
        exact sum_diagonal_pairs (fun i j => a.get i &&& b.get j) (List.pairwise_lt_finRange n)
    _ = combine a &&& combine b := by
        rw [← sum_and_sum, combine_eq_sum, combine_eq_sum]

theorem combine_complement (hn : 0 < n) (a : Sharing UInt64 n) :
    combine (complement a) = ~~~ combine a := by
  have hnot : ∀ w : UInt64, ~~~ w = w ^^^ (-1) := fun w => (UInt64.xor_neg_one).symm
  unfold complement
  rw [combine_onFirst hn hnot, hnot]

/-- The masked gate computes the gate, on every tape. -/
theorem yields_andNot (hn : 0 < n) (a b : Sharing UInt64 n) :
    (andNot a b).Yields fun s => combine s = ~~~ combine a &&& combine b := by
  intro tape
  have h := combine_andWith (Draw.words (pairs n).length tape).1 (complement a) b
  rw [combine_complement hn] at h
  exact h

end Ascon.Masking
