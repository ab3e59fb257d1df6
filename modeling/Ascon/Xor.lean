/-! # Exclusive or

  Words, bytes, byte strings of a fixed length and whole states are all
  combined by exclusive or, and secret sharing needs no more of a type than
  that. `XorGroup` says what it needs: a commutative group in which every
  element is its own inverse.

  The class carries its laws, so that a fact about sharings is proved once,
  for words, keys and states alike.
-/

namespace Ascon

/-- Values under exclusive or: a commutative group in which every element is its own inverse. -/
class XorGroup (α : Type) extends XorOp α where
  /-- The value with no bit set. -/
  zeros : α
  xor_assoc : ∀ a b c : α, a ^^^ b ^^^ c = a ^^^ (b ^^^ c)
  xor_comm : ∀ a b : α, a ^^^ b = b ^^^ a
  xor_zeros : ∀ a : α, a ^^^ zeros = a
  xor_self : ∀ a : α, a ^^^ a = zeros

namespace XorGroup

variable {α : Type} [XorGroup α]

instance associative : Std.Associative (α := α) (· ^^^ ·) := ⟨xor_assoc⟩

instance commutative : Std.Commutative (α := α) (· ^^^ ·) := ⟨xor_comm⟩

@[simp] theorem zeros_right (a : α) : a ^^^ zeros = a := xor_zeros a

@[simp] theorem zeros_left (a : α) : zeros ^^^ a = a := by rw [xor_comm, xor_zeros]

@[simp] theorem cancel_self (a : α) : a ^^^ a = zeros := xor_self a

@[simp] theorem cancel_left (a b : α) : a ^^^ (a ^^^ b) = b := by
  rw [← xor_assoc, xor_self, zeros_left]

@[simp] theorem cancel_right (a b : α) : a ^^^ b ^^^ b = a := by
  rw [xor_assoc, xor_self, xor_zeros]

/-- Adding a value on the left can be undone. -/
theorem eq_of_xor_left {a b c : α} (h : a ^^^ b = a ^^^ c) : b = c := by
  rw [← cancel_left a b, h, cancel_left]

/-- Adding a value on the right can be undone. -/
theorem eq_of_xor_right {a b c : α} (h : a ^^^ c = b ^^^ c) : a = b := by
  rw [← cancel_right a c, h, cancel_right]

theorem left_comm (a b c : α) : a ^^^ (b ^^^ c) = b ^^^ (a ^^^ c) := by
  rw [← xor_assoc, xor_comm a b, xor_assoc]

/-- One summand is exchanged for another by adding both. -/
theorem exchange (a b c d : α) : a ^^^ (c ^^^ (a ^^^ b ^^^ d)) = b ^^^ c ^^^ d := by
  calc a ^^^ (c ^^^ (a ^^^ b ^^^ d)) = a ^^^ a ^^^ (b ^^^ c ^^^ d) := by ac_rfl
    _ = b ^^^ c ^^^ d := by rw [xor_self, zeros_left]

/-! ### Sums -/

/-- The exclusive or of all values of a list. -/
def sum (as : List α) : α := as.foldr (· ^^^ ·) zeros

@[simp] theorem sum_nil : sum ([] : List α) = zeros := rfl

@[simp] theorem sum_cons (a : α) (as : List α) : sum (a :: as) = a ^^^ sum as := rfl

@[simp] theorem sum_append (as bs : List α) : sum (as ++ bs) = sum as ^^^ sum bs := by
  induction as with
  | nil => simp
  | cons a as ih => simp [ih, xor_assoc]

/-- Sums are taken place by place. -/
theorem sum_zipWith {as bs : List α} (h : as.length = bs.length) :
    sum (List.zipWith (· ^^^ ·) as bs) = sum as ^^^ sum bs := by
  induction as generalizing bs with
  | nil =>
    cases bs with
    | nil => simp
    | cons b bs => simp at h
  | cons a as ih =>
    cases bs with
    | nil => simp at h
    | cons b bs =>
      have hlen : as.length = bs.length := by simpa using h
      simp only [List.zipWith_cons_cons, sum_cons, ih hlen]
      rw [xor_assoc, left_comm b, ← xor_assoc]

/-- An additive map sends nothing to nothing. -/
theorem map_zeros {β : Type} [XorGroup β] {f : α → β} (hf : ∀ a b, f (a ^^^ b) = f a ^^^ f b) :
    f zeros = zeros := by
  have h := hf zeros zeros
  rw [xor_self] at h
  calc f zeros = f zeros ^^^ f zeros := h
    _ = zeros := xor_self _

/-- An additive map goes through sums. -/
theorem sum_map {β : Type} [XorGroup β] {f : α → β} (hf : ∀ a b, f (a ^^^ b) = f a ^^^ f b)
    (as : List α) : sum (as.map f) = f (sum as) := by
  induction as with
  | nil => exact (map_zeros hf).symm
  | cons a as ih => simp [hf, ih]
end XorGroup

/-! ### Instances -/

instance xorGroupUInt8 : XorGroup UInt8 where
  zeros := 0
  xor_assoc := UInt8.xor_assoc
  xor_comm := UInt8.xor_comm
  xor_zeros _ := UInt8.xor_zero
  xor_self _ := UInt8.xor_self

instance xorGroupUInt64 : XorGroup UInt64 where
  zeros := 0
  xor_assoc := UInt64.xor_assoc
  xor_comm := UInt64.xor_comm
  xor_zeros _ := UInt64.xor_zero
  xor_self _ := UInt64.xor_self

@[simp] theorem zeros_uint8 : (XorGroup.zeros : UInt8) = 0 := rfl

@[simp] theorem zeros_uint64 : (XorGroup.zeros : UInt64) = 0 := rfl

/-- Vectors are combined place by place. -/
instance xorVector {α : Type} {n : Nat} [XorOp α] : XorOp (Vector α n) where
  xor := Vector.zipWith (· ^^^ ·)

@[simp] theorem getElem_vector_xor {α : Type} {n : Nat} [XorOp α] (a b : Vector α n) (i : Nat)
    (h : i < n) : (a ^^^ b)[i] = a[i] ^^^ b[i] :=
  Vector.getElem_zipWith h

instance xorGroupVector {α : Type} {n : Nat} [XorGroup α] : XorGroup (Vector α n) where
  zeros := Vector.replicate n XorGroup.zeros
  xor_assoc _ _ _ := Vector.ext fun _ _ => by
    simp only [getElem_vector_xor, XorGroup.xor_assoc]
  xor_comm a b := Vector.ext fun i h => by
    simp only [getElem_vector_xor, XorGroup.xor_comm a[i]]
  xor_zeros _ := Vector.ext fun _ _ => by
    simp only [getElem_vector_xor, Vector.getElem_replicate, XorGroup.xor_zeros]
  xor_self _ := Vector.ext fun _ _ => by
    simp only [getElem_vector_xor, Vector.getElem_replicate, XorGroup.xor_self]

@[simp] theorem getElem_vector_zeros {α : Type} {n : Nat} [XorGroup α] (i : Nat) (h : i < n) :
    (XorGroup.zeros : Vector α n)[i] = XorGroup.zeros :=
  Vector.getElem_replicate h

end Ascon
