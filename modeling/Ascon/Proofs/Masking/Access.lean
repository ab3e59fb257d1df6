import Ascon.Proofs.Masking.InPlace
import Ascon.Proofs.Masking.Permutation
import Ascon.Proofs.State.Bytes
import Ascon.Proofs.State.Window

/-! # Masked byte access does what plain byte access does

  Every operation on the bytes of a masked state does to the shared state what
  the plain operation of the same name does, with the same bytes read and the
  same refusals. None of it depends on the tape.

  - Erasing is additive, so it may be done share by share, and so is reading.
  - Data that come in are added as a fresh sharing of the state that holds
    nothing but them. How far the shares of that sharing reach is of no
    importance here.
  - Data that come in as shares of one length stand for their sum.
-/

namespace Ascon.MaskedState

open Masking Sharing

variable {n : Nat}

/-! ### Windows -/

/-- Operations that check the same window agree if they do so on windows inside the state. -/
theorem agree_window {α β : Type} {R : α → β → Prop} {offset len : Nat}
    {f : Unit → Except Fault α} {g : Unit → Except Fault β}
    (h : offset + len ≤ 40 → Agree R (f ()) (g ())) :
    Agree R (checkWindow offset len >>= f) (checkWindow offset len >>= g) := by
  by_cases hle : offset + len ≤ 40
  · rw [checkWindow_of_le hle]
    exact h hle
  · rw [checkWindow_of_lt (Nat.lt_of_not_le hle)]
    exact .refused _

/-- The same for an operation that may draw once its window has been checked. -/
theorem agree_lift_window {α β : Type} {R : α → β → Prop} {offset len : Nat}
    {f : Unit → CheckedDraw α} {g : Unit → Except Fault β}
    (h : offset + len ≤ 40 → Agree R (f ()) (g ())) :
    Agree R ((liftM (checkWindow offset len) : CheckedDraw Unit) >>= f)
      (checkWindow offset len >>= g) := by
  by_cases hle : offset + len ≤ 40
  · rw [checkWindow_of_le hle]
    exact h hle
  · rw [checkWindow_of_lt (Nat.lt_of_not_le hle)]
    intro _
    exact .refused _

/-! ### Sharing a state -/

theorem checkShares_of_le {refusal : Nat → Fault} {count : Nat} (h : 2 ≤ count ∧ count ≤ 4) :
    checkShares refusal count = .ok () := if_pos h

/-- A fresh sharing of a state shares it. -/
theorem agree_mask (hn : 2 ≤ n ∧ n ≤ 4) (s : State) :
    Agree (fun y t => unmask y = t) (mask n s) (pure s : Except Fault State) := by
  unfold mask
  rw [checkShares_of_le hn]
  intro tape
  exact .ok (combine_ofRest (by omega) s _)

/-- Shares that are all zero share the zero state. -/
theorem unmask_zeros : unmask (XorGroup.zeros : MaskedState n) = State.zero := combine_zeros

/-- A fresh masked state shares the zero state. -/
theorem agree_new (hn : 2 ≤ n ∧ n ≤ 4) :
    Agree (fun y t => unmask y = t) (new n) (pure State.zero : Except Fault State) := by
  unfold new
  rw [checkShares_of_le hn]
  intro tape
  exact .ok ((combine_refreshWith (by omega) _ _).trans unmask_zeros)

/-! ### Public data -/

theorem agree_addBytes (hn : 0 < n) (x : MaskedState n) (data : Bytes) (offset : Nat) :
    Agree (fun y s => unmask y = s) (addBytes x data offset)
      ((unmask x).addBytes data offset) := by
  apply agree_lift_window
  intro hle
  -- nothing is asked of the fresh shares
  apply agree_draw_bind (P := fun _ => True) (fun _ => trivial)
  intro rest _
  apply agree_pure
  unfold unmask
  rw [combine_xor, combine_ofRest hn, State.addFrom_eq_xor (combine x) hle]

theorem agree_overwriteZeroes (x : MaskedState n) (offset len : Nat) :
    Agree (fun y s => unmask y = s) (overwriteZeroes x offset len)
      ((unmask x).overwriteZeroes offset len) := by
  apply agree_window
  intro hle
  apply agree_pure
  exact combine_map (fun s t => State.erase_xor s t hle) x

/-- A plain state replaces bytes by erasing them first. -/
theorem overwriteBytes_eq (s : State) (data : Bytes) (offset : Nat) :
    s.overwriteBytes data offset =
      (do (← s.overwriteZeroes offset data.length).addBytes data offset) := by
  -- outside the state both are refused, with the same window
  by_cases hle : offset + data.length ≤ 40
  · rw [State.overwriteBytes_of_le s hle, State.overwriteZeroes_of_le s hle,
      State.setFrom_eq_addFrom_erase s hle]
    exact (State.addBytes_of_le _ hle).symm
  · have hrefused := checkWindow_of_lt (Nat.lt_of_not_le hle)
    unfold State.overwriteBytes State.overwriteZeroes
    rw [hrefused]
    rfl

theorem agree_overwriteBytes (hn : 0 < n) (x : MaskedState n) (data : Bytes) (offset : Nat) :
    Agree (fun y s => unmask y = s) (overwriteBytes x data offset)
      ((unmask x).overwriteBytes data offset) := by
  rw [overwriteBytes_eq]
  apply agree_bind (agree_lift (agree_overwriteZeroes x offset data.length))
  intro y s hy
  rw [← hy]
  exact agree_addBytes hn y data offset

/-! ### Data in shares -/

/-- All of the byte strings have the same length. -/
def EvenShares (shares : Vector Bytes n) : Prop :=
  ∀ share ∈ shares.toList, share.length = leadLength shares

/-- The exclusive or of byte strings of length `len`. -/
def sumBytes (len : Nat) (shares : List Bytes) : Bytes :=
  shares.foldr xorBytes (List.replicate len 0)

/-- The byte string that is given in shares. -/
def joinShares (shares : Vector Bytes n) : Bytes :=
  sumBytes (leadLength shares) shares.toList

theorem length_sumBytes {len : Nat} {shares : List Bytes}
    (h : ∀ share ∈ shares, share.length = len) : (sumBytes len shares).length = len := by
  induction shares with
  | nil => exact List.length_replicate
  | cons share shares ih =>
    have hrest := ih fun s hs => h s (List.mem_cons_of_mem _ hs)
    have hhead := h share List.mem_cons_self
    show (xorBytes share (sumBytes len shares)).length = len
    rw [length_xorBytes, hhead, hrest, Nat.min_self]

@[simp] theorem length_joinShares {shares : Vector Bytes n} (h : EvenShares shares) :
    (joinShares shares).length = leadLength shares := length_sumBytes h

/-- The states that hold the shares of a byte string share the state that holds it. -/
theorem sum_map_addFrom {p len : Nat} (hle : p + len ≤ 40) {shares : List Bytes}
    (h : ∀ share ∈ shares, share.length = len) :
    XorGroup.sum (shares.map (State.zero.addFrom p)) =
      State.zero.addFrom p (sumBytes len shares) := by
  induction shares with
  | nil =>
    apply State.ext_byte
    intro q _
    show State.zero.byte q = (State.zero.addFrom p (List.replicate len 0)).byte q
    rw [State.byte_addFrom _ _ (by simpa using hle)]
    by_cases hq : q - p < len
    · simp [hq]
    · simp [Nat.le_of_not_lt hq]
  | cons share shares ih =>
    have hrest : ∀ s ∈ shares, s.length = len := fun s hs => h s (List.mem_cons_of_mem _ hs)
    have hhead : share.length = len := h share List.mem_cons_self
    rw [List.map_cons, XorGroup.sum_cons, ih hrest]
    exact (State.addFrom_xorBytes (by rw [hhead, length_sumBytes hrest]) (by omega)).symm

theorem checkShareLengths_of_even {shares : Vector Bytes n} (h : EvenShares shares) :
    checkShareLengths shares = .ok () := if_pos h

/-- Share by share, adding bytes is adding the state that holds them. -/
theorem zipWith_addFrom (x : MaskedState n) {shares : Vector Bytes n} {offset len : Nat}
    (hlen : ∀ share ∈ shares.toList, share.length = len) (h : offset + len ≤ 40) :
    Vector.zipWith (fun s share => s.addFrom offset share) x shares =
      x ^^^ shares.map (State.zero.addFrom offset) := by
  apply Vector.ext
  intro i hi
  have hfits : offset + shares[i].length ≤ 40 := by
    rw [hlen shares[i] (by simp)]
    exact h
  rw [Vector.getElem_zipWith, getElem_vector_xor, Vector.getElem_map]
  exact State.addFrom_eq_xor _ hfits

theorem agree_addShares (x : MaskedState n) {shares : Vector Bytes n} (h : EvenShares shares)
    (offset : Nat) :
    Agree (fun y s => unmask y = s) (addShares x shares offset)
      ((unmask x).addBytes (joinShares shares) offset) := by
  unfold addShares
  rw [checkShareLengths_of_even h, State.addBytes, length_joinShares h]
  apply agree_window
  intro hle
  apply agree_pure
  have hjoin : offset + (joinShares shares).length ≤ 40 := by rwa [length_joinShares h]
  rw [zipWith_addFrom x h hle, unmask, combine_xor, State.addFrom_eq_xor _ hjoin]
  rw [combine, combine, Vector.toList_map, sum_map_addFrom hle h]
  rfl

theorem agree_overwriteShares (x : MaskedState n) {shares : Vector Bytes n}
    (h : EvenShares shares) (offset : Nat) :
    Agree (fun y s => unmask y = s) ((overwriteShares shares offset).result x)
      ((unmask x).overwriteBytes (joinShares shares) offset) := by
  rw [result_overwriteShares, overwriteBytes_eq, length_joinShares h]
  apply agree_bind (agree_overwriteZeroes x offset (leadLength shares))
  intro y s hy
  rw [← hy]
  exact agree_addShares y h offset

/-! ### Reading -/

theorem byte_eq_unmask (x : MaskedState n) (p : Nat) : byte x p = (unmask x).byte p :=
  combine_map (fun s t => State.byte_xor s t p) x

theorem slice_eq_unmask (x : MaskedState n) (p len : Nat) :
    slice x p len = (unmask x).slice p len := by
  simp only [slice, State.slice, byte_eq_unmask]

theorem agree_extractBytes (x : MaskedState n) (offset len : Nat) :
    Agree Eq (extractBytes x offset len) ((unmask x).extractBytes offset len) := by
  unfold extractBytes
  rw [State.extractBytes, slice_eq_unmask]
  exact agree_refl _

theorem agree_extractAdd (x : MaskedState n) (data : Bytes) (room offset : Nat) :
    Agree Eq (extractAdd x data room offset) ((unmask x).extractAdd data room offset) := by
  unfold extractAdd
  rw [State.extractAdd, slice_eq_unmask]
  exact agree_refl _

end Ascon.MaskedState
