import Ascon.Proofs.Masking.Secrecy
import Mathlib.Tactic.Ring

/-! # The masked gate ends in every sharing equally often

  The outcome of a masked gate is a sharing of the value of the gate, for any
  number of shares. With the inputs held fixed, every such sharing is the outcome
  for equally many sequences of random words. How many these are follows by
  counting.

  - The gate, coupled with itself, takes the words that end in one sharing to those
    that end in another. So all sharings have equally many words.
  - There is a word for every two shares, and a sharing of a given value is told by
    all of its shares but one. Each sharing is left with a choice of one word for
    every two of the shares behind the first.
-/

namespace Ascon

/-! ### Counting -/

/-- If a map takes all of its values equally often, then what is mapped is counted by the values and
    by what is mapped to one of them. -/
theorem card_eq_card_mul_card_fiber {A B : Type} {f : A → B} {P : B → Prop} (hf : ∀ a, P (f a))
    {b : B} (h : ∀ b', P b' → Nonempty ({a // f a = b'} ≃ {a // f a = b})) :
    Nat.card A = Nat.card {b // P b} * Nat.card {a // f a = b} := by
  let fibers : A ≃ {b // P b} × {a // f a = b} := (Equiv.sigmaSubtypeFiberEquiv f P hf).symm.trans
    ((Equiv.sigmaCongrRight fun b' : {b // P b} => (h b' b'.property).some).trans
      (Equiv.sigmaEquivProd _ _))
  rw [Nat.card_congr fibers, Nat.card_prod]

theorem card_words (k : Nat) : Nat.card (Fin k → UInt64) = UInt64.size ^ k := by
  let toFin : UInt64 ≃ Fin UInt64.size :=
    ⟨UInt64.toFin, UInt64.ofFin, UInt64.ofFin_toFin, UInt64.toFin_ofFin⟩
  rw [Nat.card_fun, Nat.card_eq_of_equiv_fin toFin, Nat.card_fin]

/-- All shares but one may be anything. -/
theorem card_sharings {n : Nat} (hn : 0 < n) (value : UInt64) :
    Nat.card {s : Sharing UInt64 n // Sharing.combine s = value} = UInt64.size ^ (n - 1) := by
  let get : Vector UInt64 (n - 1) ≃ (Fin (n - 1) → UInt64) :=
    ⟨Vector.get, Vector.ofFn, fun v => Vector.ext fun i hi => Vector.getElem_ofFn hi,
      fun f => funext fun i => Vector.getElem_ofFn i.isLt⟩
  rw [← Nat.card_congr (get.symm.trans (Sharing.freshEquiv hn value)), card_words]

/-- The pairs of shares are those with the first share and those without it. -/
theorem half_mul_pred {n : Nat} (hn : 0 < n) :
    n * (n - 1) / 2 = n - 1 + (n - 1) * (n - 2) / 2 := by
  obtain ⟨m, rfl⟩ : ∃ m, n = m + 1 := ⟨n - 1, by omega⟩
  have hsplit : (m + 1) * m = 2 * m + m * (m - 1) := by
    cases m with
    | zero => rfl
    | succ m =>
      rw [Nat.add_sub_cancel]
      ring
  rw [Nat.add_sub_cancel, hsplit, Nat.mul_add_div (by decide)]
  rfl

/-! ### The gate -/

namespace Masking

open Sharing

variable {n : Nat}

/-- The outcome of a gate can be made to differ from itself by any sharing of nothing. -/
theorem coupled_andNot_self (hn : 0 < n) (a b : Sharing UInt64 n) {z : Sharing UInt64 n}
    (hz : combine z = 0) :
    Draw.Coupled (fun s s' => s = s' ^^^ z) (n * (n - 1) / 2) (andNot a b) (andNot a b) := by
  have hvalue : combine z = (~~~combine a &&& combine b) ^^^ (~~~combine a &&& combine b) := by
    rw [hz, UInt64.xor_self]
  rw [← length_pairs]
  exact coupled_andNot hn a b a b hvalue

/-- The gate reads one word for every two shares. -/
theorem reads_andNot (hn : 0 < n) (a b : Sharing UInt64 n) :
    (andNot a b).Reads ((andNot a b).made (k := n * (n - 1) / 2)) :=
  (coupled_andNot_self hn a b combine_zeros).reads_made

/-- All sharings of one value are outcomes of the gate for equally many sequences of words. -/
theorem nonempty_outcome_equiv (hn : 0 < n) (a b : Sharing UInt64 n) {s t : Sharing UInt64 n}
    (hvalue : combine s = combine t) :
    Nonempty ({words : Fin (n * (n - 1) / 2) → UInt64 // (andNot a b).made words = s} ≃
      {words : Fin (n * (n - 1) / 2) → UInt64 // (andNot a b).made words = t}) := by
  have hnothing : combine (s ^^^ t) = 0 := by
    rw [combine_xor, hvalue, UInt64.xor_self]
  obtain ⟨exchange, hexchange⟩ := (coupled_andNot_self hn a b hnothing).exists_exchange
  refine ⟨(exchange.subtypeEquiv fun words => ?_).symm⟩
  rw [hexchange]
  exact (XorGroup.xor_difference_eq_iff _ s t).symm

/-- The masked gate, for any number of shares, reads one word for every two shares. Whatever these
    words are, it ends in a sharing of the value of the gate, and it ends in each such sharing for
    equally many sequences of words: one word may be chosen for every two of the shares behind the
    first. -/
theorem andNot_equidistributed (hn : 0 < n) (a b : Sharing UInt64 n) :
    (∀ tape, (andNot a b).run tape =
      ((andNot a b).made (tape.upcoming (n * (n - 1) / 2)), tape.skip (n * (n - 1) / 2))) ∧
    (∀ words : Fin (n * (n - 1) / 2) → UInt64,
      combine ((andNot a b).made words) = ~~~combine a &&& combine b) ∧
    ∀ s, combine s = ~~~combine a &&& combine b →
      Nat.card {words : Fin (n * (n - 1) / 2) → UInt64 // (andNot a b).made words = s} =
        UInt64.size ^ ((n - 1) * (n - 2) / 2) := by
  have hvalue : ∀ words : Fin (n * (n - 1) / 2) → UInt64,
      combine ((andNot a b).made words) = ~~~combine a &&& combine b :=
    fun words => yields_andNot hn a b (.ofWords words)
  refine ⟨reads_andNot hn a b, hvalue, fun s hs => ?_⟩
  have hequally : ∀ t, combine t = ~~~combine a &&& combine b → Nonempty
      ({words : Fin (n * (n - 1) / 2) → UInt64 // (andNot a b).made words = t} ≃
        {words : Fin (n * (n - 1) / 2) → UInt64 // (andNot a b).made words = s}) :=
    fun t ht => nonempty_outcome_equiv hn a b (ht.trans hs.symm)
  have hcount := card_eq_card_mul_card_fiber hvalue hequally
  have hpow : UInt64.size ^ (n * (n - 1) / 2) =
      UInt64.size ^ (n - 1) * UInt64.size ^ ((n - 1) * (n - 2) / 2) := by
    rw [half_mul_pred hn, Nat.pow_add]
  rw [card_words, card_sharings hn, hpow] at hcount
  exact (Nat.eq_of_mul_eq_mul_left (Nat.pow_pos (by decide)) hcount).symm

/-- Five shares: ten words are read, and of these one for every two of the last four shares may be
    chosen. -/
theorem andNot_equidistributed_five :
    let a : Sharing UInt64 5 := #v[1, 2, 3, 4, 5]
    let b : Sharing UInt64 5 := #v[8, 4, 2, 1, 8]
    let s : Sharing UInt64 5 := #v[3, 1, 4, 1, 1]
    0 < 5 ∧ combine s = ~~~combine a &&& combine b ∧
      (∀ tape, ((andNot a b).run tape).2 = tape.skip 10) ∧
      (∀ words : Fin 10 → UInt64, combine ((andNot a b).made words) = 6) ∧
      Nat.card {words : Fin 10 → UInt64 // (andNot a b).made words = s} = UInt64.size ^ 6 := by
  intro a b s
  have hn : 0 < 5 := by decide
  have hs : combine s = ~~~combine a &&& combine b := by decide
  have hsix : ~~~combine a &&& combine b = 6 := by decide
  obtain ⟨hrun, hvalue, hcount⟩ := andNot_equidistributed hn a b
  exact ⟨hn, hs, fun tape => congrArg Prod.snd (hrun tape), fun words => (hvalue words).trans hsix,
    hcount s hs⟩

end Masking

end Ascon
