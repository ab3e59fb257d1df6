import Ascon.Masking.Sharing

/-! # Sums over the shares of a sharing

  What becomes of the shared value when a single share is changed, and how a
  double sum over all shares falls apart into its diagonal and the pairs of
  different shares. The latter is the identity behind the masked gate.
-/

namespace Ascon

namespace XorGroup

variable {α ι : Type} [XorGroup α]

theorem sum_map_xor (f g : ι → α) (is : List ι) :
    sum (is.map fun i => f i ^^^ g i) = sum (is.map f) ^^^ sum (is.map g) := by
  induction is with
  | nil => simp
  | cons i is ih =>
    simp only [List.map_cons, sum_cons, ih, xor_assoc, left_comm (g i)]

/-- To add a difference is to pass from its one end to the other. -/
theorem xor_difference_eq_iff (a b c : α) : a ^^^ (b ^^^ c) = b ↔ a = c := by
  constructor
  · intro h
    calc a = a ^^^ (b ^^^ c) ^^^ (b ^^^ c) := (cancel_right a _).symm
      _ = c := by rw [h, cancel_left]
  · rintro rfl
    rw [xor_comm b, cancel_left]

/-- A summand that is replaced leaves the sum, and the new one enters it. -/
theorem sum_set (as : List α) (b : α) {i : Nat} (hi : i < as.length) :
    sum (as.set i b) = sum as ^^^ (as[i] ^^^ b) := by
  induction as generalizing i with
  | nil => simp at hi
  | cons a as ih =>
    cases i with
    | zero =>
      -- the old summand cancels
      simp only [List.set_cons_zero, sum_cons, List.getElem_cons_zero]
      rw [xor_comm a (sum as), xor_assoc, cancel_left, xor_comm]
    | succ i =>
      have hlt : i < as.length := by simpa using hi
      simp only [List.set_cons_succ, sum_cons, List.getElem_cons_succ, ih hlt, xor_assoc]

/-- The pairs of a list whose first entry is the smaller one. -/
def ascending {n : Nat} (is : List (Fin n)) : List (Fin n × Fin n) :=
  is.flatMap fun i => (is.filter (i < ·)).map fun j => (i, j)

/-- In front of an ascending list, an element that is smaller than all of its members makes a pair
    with each of them. -/
theorem ascending_cons {n : Nat} {i : Fin n} {is : List (Fin n)}
    (h : (i :: is).Pairwise (· < ·)) :
    ascending (i :: is) = (is.map fun j => (i, j)) ++ ascending is := by
  have hlt : ∀ j ∈ is, i < j := (List.pairwise_cons.1 h).1
  have hfirst : (i :: is).filter (i < ·) = is := by
    rw [List.filter_cons_of_neg (by simp), List.filter_eq_self.2]
    intro j hj
    simpa using hlt j hj
  have hothers : ∀ j ∈ is, (i :: is).filter (j < ·) = is.filter (j < ·) := by
    intro j hj
    have hnot : ¬ j < i := Fin.not_lt.2 (Fin.le_of_lt (hlt j hj))
    rw [List.filter_cons_of_neg (by simpa using hnot)]
  unfold ascending
  rw [List.flatMap_cons, hfirst]
  congr 1
  rw [List.flatMap_def, List.flatMap_def]
  congr 1
  apply List.map_congr_left
  intro j hj
  rw [hothers j hj]

theorem fst_mem_of_mem_ascending {n : Nat} {is : List (Fin n)} {p : Fin n × Fin n}
    (h : p ∈ ascending is) : p.1 ∈ is := by
  obtain ⟨i, hi, hp⟩ := List.mem_flatMap.1 h
  obtain ⟨j, _, rfl⟩ := List.mem_map.1 hp
  exact hi

/-- Of any two members of an ascending list, one is the smaller. -/
theorem two_mul_length_ascending {n : Nat} {is : List (Fin n)} (h : is.Pairwise (· < ·)) :
    2 * (ascending is).length = is.length * (is.length - 1) := by
  induction is with
  | nil => rfl
  | cons i is ih =>
    have htail := ih (List.pairwise_cons.1 h).2
    have hcount : (is.length + 1) * is.length = is.length * (is.length - 1) + 2 * is.length := by
      cases is.length with
      | zero => rfl
      | succ m =>
        rw [Nat.add_sub_cancel, Nat.mul_comm (m + 1 + 1), Nat.mul_comm 2, ← Nat.mul_add]
    rw [ascending_cons h, List.length_append, List.length_map, Nat.mul_add, htail,
      List.length_cons, Nat.add_sub_cancel, hcount, Nat.add_comm]

/-- A double sum is the sum of its diagonal and of every pair with its mirror image. -/
theorem sum_diagonal_pairs {n : Nat} (f : Fin n → Fin n → α) {is : List (Fin n)}
    (h : is.Pairwise (· < ·)) :
    sum (is.map fun i => f i i) ^^^ sum ((ascending is).map fun p => f p.1 p.2 ^^^ f p.2 p.1) =
      sum (is.map fun i => sum (is.map (f i))) := by
  induction is with
  | nil => simp [ascending]
  | cons i is ih =>
    have htail := ih (List.pairwise_cons.1 h).2
    -- the pairs with `i` make up its row and its column
    have hcross : sum ((is.map fun j => (i, j)).map fun p => f p.1 p.2 ^^^ f p.2 p.1) =
        sum (is.map (f i)) ^^^ sum (is.map fun j => f j i) := by
      rw [List.map_map, ← sum_map_xor]
      rfl
    have hrows : sum (is.map fun j => f j i ^^^ sum (is.map (f j))) =
        sum (is.map fun j => f j i) ^^^ sum (is.map fun j => sum (is.map (f j))) :=
      sum_map_xor _ _ is
    rw [ascending_cons h, List.map_append, sum_append, hcross]
    simp only [List.map_cons, sum_cons]
    rw [hrows, ← htail]
    simp only [xor_assoc, left_comm (sum (is.map fun i => f i i))]

end XorGroup

namespace Sharing

variable {α : Type} {n : Nat}

theorem get_eq_getElem (s : Sharing α n) (i : Fin n) : s.get i = s[i.val] := rfl

theorem get_set (s : Sharing α n) (i : Fin n) (a : α) (j : Fin n) :
    (s.set i a i.isLt).get j = if j = i then a else s.get j := by
  rw [get_eq_getElem, Vector.getElem_set]
  by_cases h : j = i
  · rw [if_pos h, if_pos (congrArg Fin.val h).symm]
  · rw [if_neg h, if_neg fun hval => h (Fin.ext hval.symm)]
    rfl

/-- A sharing is determined by its shares. -/
theorem ext_get {s t : Sharing α n} (h : ∀ i : Fin n, s.get i = t.get i) : s = t :=
  Vector.ext fun i hi => h ⟨i, hi⟩

variable [XorGroup α]

@[simp] theorem get_xor (s t : Sharing α n) (i : Fin n) : (s ^^^ t).get i = s.get i ^^^ t.get i :=
  getElem_vector_xor s t i i.isLt

/-- Shares without a bit share nothing. -/
theorem combine_zeros : combine (XorGroup.zeros : Sharing α n) = XorGroup.zeros := by
  have h := combine_xor (XorGroup.zeros : Sharing α n) XorGroup.zeros
  rwa [XorGroup.cancel_self, XorGroup.cancel_self] at h

/-- A fresh sharing goes through an additive map share by share. -/
theorem map_ofRest {β : Type} [XorGroup β] {f : α → β} (hf : ∀ a b, f (a ^^^ b) = f a ^^^ f b)
    (value : α) (rest : Vector α (n - 1)) :
    (ofRest value rest : Sharing α n).map f = ofRest (f value) (rest.map f) := by
  apply Vector.ext
  intro i hi
  simp only [ofRest, Vector.getElem_map, Vector.getElem_ofFn, combine_map hf]
  split
  · exact hf _ _
  · rfl

/-- Nothing, shared with shares without a bit, is without a bit in every share. -/
theorem ofRest_zeros : (ofRest XorGroup.zeros XorGroup.zeros : Sharing α n) = XorGroup.zeros := by
  apply Vector.ext
  intro i hi
  simp [ofRest, combine_zeros]

/-- The shared value as a sum over the indices of the shares. -/
theorem combine_eq_sum (s : Sharing α n) :
    combine s = XorGroup.sum ((List.finRange n).map s.get) := by
  have h : s.toList = (List.finRange n).map s.get := by
    apply List.ext_getElem
    · simp
    · intro i _ _
      simp [get_eq_getElem]
  unfold combine
  rw [h]

/-- A share that is replaced leaves the shared value, and the new one enters it. -/
theorem combine_set (s : Sharing α n) (i : Fin n) (a : α) :
    combine (s.set i a i.isLt) = combine s ^^^ (s.get i ^^^ a) := by
  have hi : i.val < s.toList.length := by simp
  have hset : (s.set i a i.isLt).toList = s.toList.set i a := Vector.toList_set i.isLt
  have hget : s.toList[i.val] = s.get i := by simp [get_eq_getElem]
  unfold combine
  rw [hset, XorGroup.sum_set _ _ hi, hget]

/-- One share is determined by the others and the shared value. -/
theorem eq_of_others {s t : Sharing α n} (i : Fin n) (h : ∀ j, j ≠ i → s.get j = t.get j)
    (hvalue : combine s = combine t) : s = t := by
  have ht : s.set i (t.get i) i.isLt = t := by
    apply ext_get
    intro j
    rw [get_set]
    split
    · next hj => rw [hj]
    · next hj => exact h j hj
  -- what the replaced share contributes to the value is nothing
  have hdiff := combine_set s i (t.get i)
  rw [ht, ← hvalue] at hdiff
  have hshare : s.get i = t.get i := by
    have hcancel := congrArg (combine s ^^^ ·) hdiff
    simp only [XorGroup.cancel_left, XorGroup.cancel_self] at hcancel
    have hsum := congrArg (s.get i ^^^ ·) hcancel
    simpa only [XorGroup.cancel_left, XorGroup.zeros_right] using hsum
  apply ext_get
  intro j
  by_cases hj : j = i
  · rw [hj, hshare]
  · exact h j hj

end Sharing

end Ascon
