import Ascon.Proofs.Masking.Gate
import Ascon.Proofs.Random.Coupling

/-! # The masked gate blinds its shares

  The random words of a masked gate make up a sharing of nothing, which is added
  to the products of the shares. `cover` is this sharing.

  - What covers the products depends on the words alone, and is additive in them.
    So adding to the words adds a sharing of nothing to the outcome.
  - Every sharing of nothing is the cover of some words. It takes one word for
    each share but the first: the one that this share has in common with the
    first.
  - Therefore the outcomes of two gates, whatever their inputs are, can be made to
    differ by any sharing of the difference of their values. One has to exchange
    random words for it, and no more.
-/

namespace Ascon.Masking

open Sharing XorGroup

variable {n : Nat}

/-! ### One pair of shares -/

theorem get_crossTerm (a b acc : Sharing UInt64 n) {i j : Fin n} (hij : i ≠ j) (r : UInt64)
    (k : Fin n) :
    (crossTerm a b acc i j r).get k =
      if k = j then acc.get j ^^^ (r ^^^ mixedProducts a b (i, j))
      else if k = i then acc.get i ^^^ r else acc.get k := by
  have hne : i.val ≠ j.val := fun h => hij (Fin.ext h)
  unfold crossTerm mixedProducts
  simp only [get_eq_getElem, Vector.getElem_set, Fin.val_inj, hne, if_false, UInt64.xor_assoc,
    eq_comm (a := k)]

/-- What is added to a word and to the shares is added to the outcome. -/
theorem crossTerm_xor (a b acc d : Sharing UInt64 n) {i j : Fin n} (hij : i ≠ j) (r v : UInt64) :
    crossTerm a b (acc ^^^ d) i j (r ^^^ v) =
      crossTerm a b acc i j r ^^^ crossTerm zeros zeros d i j v := by
  have hnone : mixedProducts (zeros : Sharing UInt64 n) zeros (i, j) = 0 := by
    simp [mixedProducts, get_eq_getElem]
  apply ext_get
  intro k
  rw [get_xor, get_crossTerm a b _ hij, get_crossTerm a b _ hij, get_crossTerm _ _ _ hij, hnone]
  split
  · rw [get_xor, UInt64.xor_zero]
    ac_rfl
  · split
    · rw [get_xor]
      ac_rfl
    · exact get_xor acc d k

/-! ### All pairs of shares -/

/-- The same for any number of pairs. -/
theorem foldl_crossTerm_xor (a b acc d : Sharing UInt64 n) {pairs : List (Fin n × Fin n)}
    (h : ∀ p ∈ pairs, p.1 ≠ p.2) {rs vs : List UInt64} (hlen : rs.length = vs.length) :
    (pairs.zip (List.zipWith (· ^^^ ·) rs vs)).foldl
        (fun acc step => crossTerm a b acc step.1.1 step.1.2 step.2) (acc ^^^ d) =
      (pairs.zip rs).foldl (fun acc step => crossTerm a b acc step.1.1 step.1.2 step.2) acc ^^^
        (pairs.zip vs).foldl
          (fun acc step => crossTerm zeros zeros acc step.1.1 step.1.2 step.2) d := by
  induction pairs generalizing acc d rs vs with
  | nil => rfl
  | cons p pairs ih =>
    have hp : p.1 ≠ p.2 := h p List.mem_cons_self
    have hpairs : ∀ q ∈ pairs, q.1 ≠ q.2 := fun q hq => h q (List.mem_cons_of_mem _ hq)
    cases rs with
    | nil =>
      cases vs with
      | nil => rfl
      | cons v vs => simp at hlen
    | cons r rs =>
      cases vs with
      | nil => simp at hlen
      | cons v vs =>
        have hrest : rs.length = vs.length := by simpa using hlen
        simp only [List.zipWith_cons_cons, List.zip_cons_cons, List.foldl_cons]
        rw [crossTerm_xor a b acc d hp, ih _ _ hpairs hrest]

theorem products_zeros :
    Vector.zipWith (· &&& ·) (zeros : Sharing UInt64 n) zeros = zeros := by
  ext i hi
  simp

/-- The sharing of nothing that random words make up. -/
def cover (words : Vector UInt64 (pairs n).length) : Sharing UInt64 n := andWith words zeros zeros

/-- Words that are added to the random words add their cover to the outcome. -/
theorem andWith_xor (words added : Vector UInt64 (pairs n).length) (a b : Sharing UInt64 n) :
    andWith (words ^^^ added) a b = andWith words a b ^^^ cover added := by
  have hne : ∀ p ∈ pairs n, p.1 ≠ p.2 := fun _ hp => ne_of_mem_pairs hp
  have hlist : (words ^^^ added).toList = List.zipWith (· ^^^ ·) words.toList added.toList :=
    Vector.toList_zipWith
  have hlen : words.toList.length = added.toList.length := by simp
  have h := foldl_crossTerm_xor a b (Vector.zipWith (· &&& ·) a b) zeros hne hlen
  rw [xor_zeros] at h
  unfold cover andWith
  rw [hlist, products_zeros]
  exact h

/-- The outcome is the one without random words, under their cover. -/
theorem andWith_eq (words : Vector UInt64 (pairs n).length) (a b : Sharing UInt64 n) :
    andWith words a b = andWith zeros a b ^^^ cover words := by
  have h := andWith_xor zeros words a b
  rwa [zeros_left] at h

theorem combine_cover (words : Vector UInt64 (pairs n).length) : combine (cover words) = 0 := by
  have hnone : combine (zeros : Sharing UInt64 n) = zeros := combine_zeros
  unfold cover
  rw [combine_andWith, hnone]
  rfl

/-! ### Which sharings are covers -/

/-- The word that a pair of shares has in common in the cover of a sharing of nothing: the share
    itself, for a pair with the first share, and nothing for any other pair. -/
def commonWord (t : Sharing UInt64 n) (p : Fin n × Fin n) : UInt64 :=
  if p.1.val = 0 then t.get p.2 else 0

/-- Pairs without the first share contribute nothing. -/
theorem foldl_commonWord_others (t d : Sharing UInt64 n) {pairs : List (Fin n × Fin n)}
    (hne : ∀ p ∈ pairs, p.1 ≠ p.2) (h : ∀ p ∈ pairs, p.1.val ≠ 0) :
    pairs.foldl (fun acc p => crossTerm zeros zeros acc p.1 p.2 (commonWord t p)) d = d := by
  induction pairs with
  | nil => rfl
  | cons p pairs ih =>
    have hp : p.1 ≠ p.2 := hne p List.mem_cons_self
    have hfirst : p.1.val ≠ 0 := h p List.mem_cons_self
    have hstep : crossTerm zeros zeros d p.1 p.2 (commonWord t p) = d := by
      apply ext_get
      intro k
      rw [get_crossTerm _ _ _ hp, commonWord, if_neg hfirst]
      split
      · next hk => simp [mixedProducts, get_eq_getElem, hk]
      · split
        · next hk => simp [hk]
        · rfl
    rw [List.foldl_cons, hstep]
    exact ih (fun q hq => hne q (List.mem_cons_of_mem _ hq))
      fun q hq => h q (List.mem_cons_of_mem _ hq)

/-- Every share that is paired with the first one receives the word that belongs to it. -/
theorem get_foldl_commonWord (t d : Sharing UInt64 n) {first : Fin n} (hfirst : first.val = 0)
    {js : List (Fin n)} (hjs : (first :: js).Nodup) {k : Fin n} (hk : k ≠ first) :
    (js.foldl (fun acc j => crossTerm zeros zeros acc first j (commonWord t (first, j))) d).get k =
      if k ∈ js then d.get k ^^^ t.get k else d.get k := by
  induction js generalizing d with
  | nil => simp
  | cons j js ih =>
    have hne : first ≠ j := by
      intro h
      simp [h] at hjs
    have hnotin : j ∉ js := by
      intro h
      simp [h] at hjs
    have hrest : (first :: js).Nodup :=
      hjs.sublist (List.Sublist.cons_cons _ (List.sublist_cons_self j js))
    have hstep : (crossTerm zeros zeros d first j (commonWord t (first, j))).get k =
        if k = j then d.get k ^^^ t.get k else d.get k := by
      rw [get_crossTerm _ _ _ hne, commonWord, if_pos hfirst, if_neg hk]
      split
      · next hkj => simp [mixedProducts, get_eq_getElem, hkj]
      · rfl
    rw [List.foldl_cons, ih _ hrest, hstep]
    by_cases hkj : k = j
    · have hout : k ∉ js := hkj ▸ hnotin
      rw [if_neg hout, if_pos hkj, if_pos (List.mem_cons.2 (.inl hkj))]
    · have hmem : k ∈ j :: js ↔ k ∈ js := by simp [hkj]
      simp only [hkj, hmem, if_false]

/-- Every sharing of nothing is the cover of some words. -/
theorem exists_cover_eq (hn : 0 < n) {t : Sharing UInt64 n} (ht : combine t = 0) :
    ∃ words, cover words = t := by
  obtain ⟨m, rfl⟩ : ∃ m, n = m + 1 := ⟨n - 1, by omega⟩
  let words : Vector UInt64 (pairs (m + 1)).length :=
    ⟨((pairs (m + 1)).map (commonWord t)).toArray, by simp⟩
  have hrange : List.finRange (m + 1) = 0 :: (List.finRange m).map Fin.succ := List.finRange_succ
  have hmem : ∀ k : Fin (m + 1), k ≠ 0 → k ∈ (List.finRange m).map Fin.succ := by
    intro k hk
    have h := List.mem_finRange k
    rw [hrange] at h
    exact (List.mem_cons.1 h).resolve_left hk
  have hsorted := List.pairwise_lt_finRange (m + 1)
  have hnodup := List.nodup_finRange (m + 1)
  have hne : ∀ p ∈ pairs (m + 1), p.1 ≠ p.2 := fun _ hp => ne_of_mem_pairs hp
  have hpairs := pairs_eq_ascending (m + 1)
  rw [hrange] at hsorted hnodup hpairs
  generalize (List.finRange m).map Fin.succ = others at hmem hsorted hnodup hpairs
  -- the pairs with the first share come first
  rw [ascending_cons hsorted] at hpairs
  have hcover : cover words = (pairs (m + 1)).foldl
      (fun acc p => crossTerm zeros zeros acc p.1 p.2 (commonWord t p)) zeros := by
    have hzip : (pairs (m + 1)).zip words.toList =
        (pairs (m + 1)).map fun p => (p, commonWord t p) := List.map_prod_left_eq_zip.symm
    unfold cover andWith
    rw [hzip, products_zeros, List.foldl_map]
  have hlater : ∀ p ∈ ascending others, p.1.val ≠ 0 := by
    intro p hp
    have hlt : 0 < p.1 := (List.pairwise_cons.1 hsorted).1 p.1 (fst_mem_of_mem_ascending hp)
    exact Nat.ne_of_gt hlt
  refine ⟨words, eq_of_others 0 (fun k hk => ?_) (by rw [combine_cover, ht])⟩
  rw [hpairs] at hne
  rw [hcover, hpairs, List.foldl_append, List.foldl_map,
    foldl_commonWord_others _ _ (fun p hp => hne p (List.mem_append_right _ hp)) hlater,
    get_foldl_commonWord t _ rfl hnodup hk, if_pos (hmem k hk)]
  simp [get_eq_getElem]

/-! ### Two gates -/

/-- There is one random word for every two shares. -/
theorem length_pairs (n : Nat) : (pairs n).length = n * (n - 1) / 2 := by
  have h := two_mul_length_ascending (List.pairwise_lt_finRange n)
  rw [List.length_finRange] at h
  rw [pairs_eq_ascending, ← h, Nat.mul_div_cancel_left _ (by decide)]

/-- The outcomes of two gates can be made to differ by any sharing of the difference of their
    values. -/
theorem coupled_andNot (hn : 0 < n) (a b a' b' : Sharing UInt64 n) {z : Sharing UInt64 n}
    (hz : combine z = (~~~combine a &&& combine b) ^^^ (~~~combine a' &&& combine b')) :
    Draw.Coupled (fun s s' => s = s' ^^^ z) (pairs n).length (andNot a b) (andNot a' b') := by
  -- besides `z`, the added words make up for the difference of the products
  have hnothing : combine (andWith zeros (complement a) b ^^^ andWith zeros (complement a') b' ^^^
      z) = 0 := by
    rw [combine_xor, combine_xor, combine_andWith, combine_andWith, combine_complement hn,
      combine_complement hn, hz, XorGroup.cancel_self]
    rfl
  obtain ⟨added, hadded⟩ := exists_cover_eq hn hnothing
  refine Draw.coupled_bind (Draw.coupled_words added) fun words words' hwords =>
    Draw.coupled_pure ?_
  rw [hwords, andWith_xor, andWith_eq words', andWith_eq words', hadded, XorGroup.xor_assoc]
  exact exchange _ _ _ z

end Ascon.Masking
