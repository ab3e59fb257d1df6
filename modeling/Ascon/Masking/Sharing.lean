import Ascon.Xor

/-! # Sharings

  A secret is split into shares whose exclusive or is the secret. Anything
  with an exclusive or can be shared: words, keys, whole states.

  - A fresh sharing takes every share but the first as given, which is to say
    at random, and puts into the first one what is then missing.
  - To refresh a sharing is to add a fresh sharing of nothing.
  - A linear operation acts on every share for itself. A constant is added to
    the first share alone.
-/

namespace Ascon

/-- A value split into `n` shares. -/
abbrev Sharing (α : Type) (n : Nat) := Vector α n

namespace Sharing

variable {α : Type} {n : Nat}

/-- The value that is shared. -/
def combine [XorGroup α] (s : Sharing α n) : α := XorGroup.sum s.toList

/-- The sharing of `value` with the given shares behind the first one. -/
def ofRest [XorGroup α] (value : α) (rest : Vector α (n - 1)) : Sharing α n :=
  Vector.ofFn fun i => if h : i.val = 0 then value ^^^ combine rest else rest[i.val - 1]

/-- The sharing with a fresh sharing of nothing added to it. -/
def refreshWith [XorGroup α] (s : Sharing α n) (rest : Vector α (n - 1)) : Sharing α n :=
  s ^^^ ofRest XorGroup.zeros rest

/-- Changes the first share. -/
def onFirst (f : α → α) (s : Sharing α n) : Sharing α n :=
  s.mapIdx fun i a => if i = 0 then f a else a

theorem toList_onFirst (f : α → α) (s : Sharing α n) :
    (s.onFirst f).toList = s.toList.modifyHead f := by
  have h : (s.onFirst f).toList = s.toList.mapIdx fun i a => if i = 0 then f a else a := by
    simp [onFirst, Vector.toList, Vector.mapIdx]
  rw [h]
  cases s.toList with
  | nil => rfl
  | cons a as =>
    simp only [List.mapIdx_cons, List.modifyHead_cons, if_pos, List.cons.injEq, true_and]
    exact List.ext_getElem (by simp) (by simp)

/-! ### What is shared -/

variable [XorGroup α]

/-- The sum of two sharings shares the sum. -/
theorem combine_xor (s t : Sharing α n) : combine (s ^^^ t) = combine s ^^^ combine t := by
  have h : (s ^^^ t).toList = List.zipWith (· ^^^ ·) s.toList t.toList := Vector.toList_zipWith
  rw [combine, h, XorGroup.sum_zipWith (by simp)]; rfl

/-- An additive map may be applied share by share. -/
theorem combine_map {β : Type} [XorGroup β] {f : α → β}
    (hf : ∀ a b, f (a ^^^ b) = f a ^^^ f b) (s : Sharing α n) :
    combine (s.map f) = f (combine s) := by
  rw [combine, Vector.toList_map, XorGroup.sum_map hf]; rfl

/-- A fresh sharing shares its value, whatever the other shares are. -/
theorem combine_ofRest (hn : 0 < n) (value : α) (rest : Vector α (n - 1)) :
    combine (ofRest value rest) = value := by
  obtain ⟨m, rfl⟩ : ∃ m, n = m + 1 := ⟨n - 1, by omega⟩
  have htail : (List.ofFn fun i : Fin m => rest[i.val]) = rest.toList := by
    apply List.ext_getElem <;> simp
  rw [combine, ofRest, Vector.toList_ofFn, List.ofFn_succ]
  simp [htail, combine]

/-- A refreshed sharing shares the same value. -/
theorem combine_refreshWith (hn : 0 < n) (s : Sharing α n) (rest : Vector α (n - 1)) :
    combine (s.refreshWith rest) = combine s := by
  rw [refreshWith, combine_xor, combine_ofRest hn, XorGroup.xor_zeros]

/-- A constant that goes into the first share goes into the value. -/
theorem combine_onFirst (hn : 0 < n) {f : α → α} {c : α} (hf : ∀ a, f a = a ^^^ c)
    (s : Sharing α n) : combine (s.onFirst f) = combine s ^^^ c := by
  have hlen : s.toList.length = n := by simp
  rw [combine, combine, toList_onFirst]
  cases hs : s.toList with
  | nil => simp [hs] at hlen; omega
  | cons a as =>
    simp only [List.modifyHead_cons, XorGroup.sum_cons, hf, XorGroup.xor_assoc,
      XorGroup.xor_comm c]

end Sharing

end Ascon
