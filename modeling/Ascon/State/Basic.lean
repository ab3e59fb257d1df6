import Ascon.Sizes
import Ascon.Xor
import Ascon.Lane

/-! # The state

  A state is five 64-bit words. The permutation works on the words; everything
  built on top of it works on the forty bytes that one reads off by writing
  the words one after the other, each with its most significant byte first.

  - `State.byte` is the view through which byte operations are understood:
    two states with the same forty bytes are equal (`State.ext_byte`), and
    each write is described by the bytes that it leaves behind.
  - Positions are plain numbers. A position past the end reads as zero and is
    not written to; callers with positions of their own go through the checked
    windows instead.
-/

namespace Ascon

/-- The state of the permutation: five 64-bit words. -/
@[ext] structure State where
  /-- The word of bytes 0 to 7. -/
  x0 : UInt64
  /-- The word of bytes 8 to 15. -/
  x1 : UInt64
  /-- The word of bytes 16 to 23. -/
  x2 : UInt64
  /-- The word of bytes 24 to 31. -/
  x3 : UInt64
  /-- The word of bytes 32 to 39. -/
  x4 : UInt64
deriving DecidableEq, Repr, Inhabited

namespace State

/-! ### Words -/

/-- The state with no bit set. -/
def zero : State := ⟨0, 0, 0, 0, 0⟩

/-- The word with the given index, and `0` past the last one. -/
def word (s : State) : Nat → UInt64
  | 0 => s.x0
  | 1 => s.x1
  | 2 => s.x2
  | 3 => s.x3
  | 4 => s.x4
  | _ => 0

/-- Changes the word with the given index by `f`. -/
def modifyWord (s : State) (i : Nat) (f : UInt64 → UInt64) : State :=
  match i with
  | 0 => { s with x0 := f s.x0 }
  | 1 => { s with x1 := f s.x1 }
  | 2 => { s with x2 := f s.x2 }
  | 3 => { s with x3 := f s.x3 }
  | 4 => { s with x4 := f s.x4 }
  | _ => s

/-- The words of a state, in order. -/
def words (s : State) : List UInt64 := [s.x0, s.x1, s.x2, s.x3, s.x4]

theorem word_modifyWord (s : State) (f : UInt64 → UInt64) {i j : Nat} (hi : i < 5) :
    (s.modifyWord i f).word j = if j = i then f (s.word i) else s.word j := by
  match i, hi with
  | 0, _ | 1, _ | 2, _ | 3, _ | 4, _ =>
    match j with
    | 0 | 1 | 2 | 3 | 4 | _ + 5 => simp [modifyWord, word]

/-- A state is determined by its five words. -/
theorem ext_word {s t : State} (h : ∀ i < 5, s.word i = t.word i) : s = t :=
  State.ext (h 0 (by decide)) (h 1 (by decide)) (h 2 (by decide)) (h 3 (by decide))
    (h 4 (by decide))

/-! ### States under exclusive or -/

instance xorOp : XorOp State where
  xor s t := ⟨s.x0 ^^^ t.x0, s.x1 ^^^ t.x1, s.x2 ^^^ t.x2, s.x3 ^^^ t.x3, s.x4 ^^^ t.x4⟩

@[simp] theorem xor_x0 (s t : State) : (s ^^^ t).x0 = s.x0 ^^^ t.x0 := rfl
@[simp] theorem xor_x1 (s t : State) : (s ^^^ t).x1 = s.x1 ^^^ t.x1 := rfl
@[simp] theorem xor_x2 (s t : State) : (s ^^^ t).x2 = s.x2 ^^^ t.x2 := rfl
@[simp] theorem xor_x3 (s t : State) : (s ^^^ t).x3 = s.x3 ^^^ t.x3 := rfl
@[simp] theorem xor_x4 (s t : State) : (s ^^^ t).x4 = s.x4 ^^^ t.x4 := rfl

instance xorGroup : XorGroup State where
  zeros := zero
  xor_assoc _ _ _ := by ext1 <;> exact UInt64.xor_assoc _ _ _
  xor_comm _ _ := by ext1 <;> exact UInt64.xor_comm _ _
  xor_zeros _ := by ext1 <;> exact UInt64.xor_zero
  xor_self _ := by ext1 <;> exact UInt64.xor_self

@[simp] theorem word_xor (s t : State) (i : Nat) : (s ^^^ t).word i = s.word i ^^^ t.word i := by
  match i with
  | 0 | 1 | 2 | 3 | 4 | _ + 5 => simp [word]

/-! ### Bytes -/

/-- The byte at position `p`. -/
def byte (s : State) (p : Nat) : UInt8 := Lane.get (s.word (p / 8)) (p % 8)

/-- Combines `b` into the byte at position `p` by exclusive or. -/
def addByte (s : State) (p : Nat) (b : UInt8) : State :=
  s.modifyWord (p / 8) fun w => Lane.add w (p % 8) b

/-- Replaces the byte at position `p` by `b`. -/
def setByte (s : State) (p : Nat) (b : UInt8) : State :=
  s.modifyWord (p / 8) fun w => Lane.put w (p % 8) b

theorem byte_addByte (s : State) (b : UInt8) {p q : Nat} (hp : p < 40) :
    (s.addByte p b).byte q = if q = p then s.byte q ^^^ b else s.byte q := by
  unfold byte addByte
  rw [word_modifyWord _ _ (by omega)]
  by_cases hw : q / 8 = p / 8
  · rw [if_pos hw, Lane.get_add _ _ (Nat.mod_lt _ (by decide)) (Nat.mod_lt _ (by decide)), ← hw]
    have : q % 8 = p % 8 ↔ q = p := by omega
    simp only [this]
  · rw [if_neg hw, if_neg fun h => hw (by rw [h])]

theorem byte_setByte (s : State) (b : UInt8) {p q : Nat} (hp : p < 40) :
    (s.setByte p b).byte q = if q = p then b else s.byte q := by
  unfold byte setByte
  rw [word_modifyWord _ _ (by omega)]
  by_cases hw : q / 8 = p / 8
  · rw [if_pos hw, Lane.get_put _ _ (Nat.mod_lt _ (by decide)) (Nat.mod_lt _ (by decide)), ← hw]
    have : q % 8 = p % 8 ↔ q = p := by omega
    simp only [this]
  · rw [if_neg hw, if_neg fun h => hw (by rw [h])]

/-- A state is determined by its forty bytes. -/
theorem ext_byte {s t : State} (h : ∀ p < 40, s.byte p = t.byte p) : s = t := by
  refine ext_word fun i hi => Lane.ext fun k hk => ?_
  have hb := h (8 * i + k) (by omega)
  simpa only [byte, show (8 * i + k) / 8 = i by omega, show (8 * i + k) % 8 = k by omega] using hb

/-! ### Runs of bytes -/

/-- Combines `data` into the bytes from position `p` on. -/
def addFrom (s : State) (p : Nat) : Bytes → State
  | [] => s
  | b :: data => (s.addByte p b).addFrom (p + 1) data

/-- Replaces the bytes from position `p` on by `data`. -/
def setFrom (s : State) (p : Nat) : Bytes → State
  | [] => s
  | b :: data => (s.setByte p b).setFrom (p + 1) data

/-- The `len` bytes from position `p` on. -/
def slice (s : State) (p len : Nat) : Vector UInt8 len :=
  Vector.ofFn fun i => s.byte (p + i)

theorem byte_addFrom (s : State) (data : Bytes) {p q : Nat} (h : p + data.length ≤ 40) :
    (s.addFrom p data).byte q =
      s.byte q ^^^ if p ≤ q then data.getD (q - p) 0 else 0 := by
  induction data generalizing s p with
  | nil => simp [addFrom]
  | cons b data ih =>
    have hlen : p + 1 + data.length ≤ 40 := by simpa [Nat.add_right_comm, Nat.add_assoc] using h
    rw [addFrom, ih _ hlen, byte_addByte _ _ (by omega)]
    rcases Nat.lt_trichotomy q p with hq | rfl | hq
    · simp [show ¬ q = p by omega, show ¬ p + 1 ≤ q by omega, show ¬ p ≤ q by omega]
    · simp [show ¬ q + 1 ≤ q by omega]
    · obtain ⟨k, hk⟩ : ∃ k, q - p = k + 1 := ⟨q - p - 1, by omega⟩
      simp [show ¬ q = p by omega, show p + 1 ≤ q by omega, show p ≤ q by omega,
        show q - (p + 1) = k by omega, hk]

theorem byte_setFrom (s : State) (data : Bytes) {p q : Nat} (h : p + data.length ≤ 40) :
    (s.setFrom p data).byte q =
      if p ≤ q ∧ q < p + data.length then data.getD (q - p) 0 else s.byte q := by
  induction data generalizing s p with
  | nil => simp [setFrom, show ¬ (p ≤ q ∧ q < p) by omega]
  | cons b data ih =>
    have hlen : p + 1 + data.length ≤ 40 := by simpa [Nat.add_right_comm, Nat.add_assoc] using h
    rw [setFrom, ih _ hlen, byte_setByte _ _ (by omega), List.length_cons]
    rcases Nat.lt_trichotomy q p with hq | rfl | hq
    · simp [show ¬ q = p by omega, show ¬ p + 1 ≤ q by omega, show ¬ p ≤ q by omega]
    · simp [show ¬ q + 1 ≤ q by omega]
    · obtain ⟨k, hk⟩ : ∃ k, q - p = k + 1 := ⟨q - p - 1, by omega⟩
      have hlt : q < p + (data.length + 1) ↔ q < p + 1 + data.length := by omega
      simp [show ¬ q = p by omega, show p + 1 ≤ q by omega, show p ≤ q by omega,
        show q - (p + 1) = k by omega, hk, hlt]

/-! ### The forty bytes of a state -/

/-- The state with the given bytes. -/
def ofBytes (bytes : Vector UInt8 stateBytes) : State := zero.setFrom 0 bytes.toList

/-- The bytes of a state. -/
def toBytes (s : State) : Vector UInt8 stateBytes := s.slice 0 stateBytes

end State

end Ascon
