import Ascon.Proofs.Masking.Access
import Ascon.Random.Generator

/-! # When a masked state refuses, and what that leaves

  A masked state refuses a command for one of a few reasons, and they can be read
  off the command: neither the shares nor the tape have a say in it. What a refusal
  leaves behind is a matter of the order in which checks and changes are made.

  - `Command.verdict` gives the reasons, each in its turn where a command has
    several. An operation that is made of others is refused as its parts are, one
    after the other (`refusedAs_bind`).
  - An operation that makes all of its checks before its first change leaves
    everything as it was when it is refused. All commands but one are like that.
  - The exception is to replace bytes by shared data. The window is erased before the
    lengths of the shares are compared. If they differ, the command is refused, and
    the window has been lost: it is left as zeros in every share of the masked state.
    Only the tape and the buffer are what they were.
-/

namespace Ascon

/-! ### Computations that are refused as a check says -/

/-- An operation in place agrees with a check if its outcome does, wherever it is run. -/
instance inPlaceAgreement {σ : Type} : Agreement (InPlace σ) (Except Fault) where
  Agree R x y := ∀ s, Agree (fun a b => R a.1 b) (x.outcome s) y
  agree_pure h _ := .ok h
  agree_bind hx hf s := by
    rw [InPlace.outcome_bind]
    exact agree_bind (hx s) fun a b h => hf a.1 b h a.2

namespace InPlace

variable {σ α β : Type}

/-- Whatever its answers are, the operation is refused as the check is, and only then. -/
def RefusedAs (op : InPlace σ α) (check : Except Fault Unit) : Prop :=
  Agree (fun _ _ => True) op check

section rules

variable {check check' : Except Fault Unit} {op : InPlace σ α} {f : α → InPlace σ β}

theorem refusedAs_bind (hop : RefusedAs op check) (hf : ∀ a, RefusedAs (f a) check') :
    RefusedAs (op >>= f) (check >>= fun _ => check') :=
  agree_bind hop fun a _ _ => hf a

/-- What cannot be refused may come behind anything else. -/
theorem refusedAs_bind_ok (hop : RefusedAs op check) (hf : ∀ a, RefusedAs (f a) (.ok ())) :
    RefusedAs (op >>= f) check := by
  have hok : (check >>= fun _ => .ok ()) = check := by cases check <;> rfl
  have h := refusedAs_bind hop hf
  rwa [hok] at h

theorem refusedAs_pure (a : α) : RefusedAs (pure a : InPlace σ α) (.ok ()) :=
  fun _ => .ok trivial

theorem refusedAs_modify (g : σ → σ) : RefusedAs (modify g : InPlace σ PUnit) (.ok ()) :=
  fun _ => .ok trivial

theorem refusedAs_check (c : Except Fault Unit) :
    RefusedAs (InPlace.check c : InPlace σ Unit) c := by
  intro s
  cases c with
  | error fault => exact .refused fault
  | ok u => exact .ok trivial

theorem refusedAs_forM {ι : Type} {g : ι → InPlace σ PUnit} (hg : ∀ i, RefusedAs (g i) (.ok ()))
    (is : List ι) : RefusedAs (is.forM g) (.ok ()) := by
  induction is with
  | nil => exact refusedAs_pure _
  | cons i is ih => exact refusedAs_bind (hg i) fun _ => ih

theorem exists_run_of_refusedAs_ok (h : RefusedAs op (.ok ())) (s : σ) :
    ∃ a t, op.run s = .ok a t := by
  have hrun : AgreeChecked _ (op.outcome s) (.ok ()) := h s
  cases hop : op.run s with
  | ok a t => exact ⟨a, t, rfl⟩
  | error fault t =>
    rw [outcome_of_error hop] at hrun
    cases hrun

theorem exists_run_of_refusedAs_error {fault : Fault} (h : RefusedAs op (.error fault)) (s : σ) :
    ∃ t, op.run s = .error fault t := by
  have hrun : AgreeChecked _ (op.outcome s) (.error fault) := h s
  cases hop : op.run s with
  | ok a t =>
    rw [outcome_of_ok hop] at hrun
    cases hrun
  | error fault' t =>
    rw [outcome_of_error hop] at hrun
    cases hrun
    exact ⟨t, rfl⟩

/-- What only makes its answer of another operation's is refused where that one is. -/
theorem run_of_run_bind_pure {g : α → β} {s t : σ} {fault : Fault}
    (h : (op >>= fun a => pure (g a)).run s = .error fault t) : op.run s = .error fault t := by
  cases hop : op.run s with
  | ok a u =>
    rw [run_bind_of_ok hop] at h
    cases h
  | error fault' u =>
    rw [run_bind_of_error hop] at h
    cases h
    rfl

end rules

/-! ### Operations that change nothing when they are refused -/

/-- The operation is refused as the check is, and leaves the object as it was when it is. -/
structure RefusedCleanly (op : InPlace σ α) (check : Except Fault Unit) : Prop where
  refused : RefusedAs op check
  kept : ∀ s t fault, op.run s = .error fault t → t = s

section clean

variable {check check' : Except Fault Unit} {op : InPlace σ α} {f : α → InPlace σ β}

/-- What is never refused has nothing to keep. -/
theorem RefusedAs.cleanly (h : RefusedAs op (.ok ())) : RefusedCleanly op (.ok ()) where
  refused := h
  kept s t fault hrun := by
    obtain ⟨a, u, hok⟩ := exists_run_of_refusedAs_ok h s
    rw [hok] at hrun
    cases hrun

/-- A check may come in front, since it changes nothing. -/
theorem RefusedCleanly.check_bind (c : Except Fault Unit) {f : Unit → InPlace σ β}
    (hf : ∀ u, RefusedCleanly (f u) check) :
    RefusedCleanly (InPlace.check c >>= f) (c >>= fun _ => check) where
  refused := refusedAs_bind (refusedAs_check c) fun u => (hf u).refused
  kept s t fault hrun := by
    cases c with
    | error fault' =>
      rw [run_bind_of_error (run_check_error fault' s)] at hrun
      cases hrun
      rfl
    | ok u => exact (hf u).kept s t fault hrun

/-- What is never refused may come behind anything else. -/
theorem RefusedCleanly.bind (hop : RefusedCleanly op check) (hf : ∀ a, RefusedAs (f a) (.ok ())) :
    RefusedCleanly (op >>= f) check where
  refused := refusedAs_bind_ok hop.refused hf
  kept s t fault hrun := by
    cases hfirst : op.run s with
    | error fault' u =>
      rw [run_bind_of_error hfirst] at hrun
      cases hrun
      exact hop.kept s t fault hfirst
    | ok a u =>
      obtain ⟨b, v, hok⟩ := exists_run_of_refusedAs_ok (hf a) u
      rw [run_bind_of_ok hfirst, hok] at hrun
      cases hrun

theorem refusedCleanly_check (c : Except Fault Unit) :
    RefusedCleanly (InPlace.check c : InPlace σ Unit) c where
  refused := refusedAs_check c
  kept s t fault hrun := by
    cases c with
    | error fault' =>
      cases hrun
      rfl
    | ok u => cases hrun

/-- Behind a single check, what is never refused changes the object only if the check is passed. -/
theorem RefusedCleanly.of_check (c : Except Fault Unit) {f : Unit → InPlace σ β}
    (hf : ∀ u, RefusedAs (f u) (.ok ())) : RefusedCleanly (InPlace.check c >>= f) c :=
  (refusedCleanly_check c).bind hf

end clean

end InPlace

namespace MaskedState

open Masking InPlace

variable {n : Nat}

/-! ### Operations on the shares -/

section shares

variable (shares : Vector Bytes n) (offset len : Nat)

instance decidableEvenShares : Decidable (EvenShares shares) :=
  inferInstanceAs (Decidable (∀ share ∈ shares.toList, share.length = leadLength shares))

/-- What comes behind a check is asked only if the check is passed. -/
theorem ite_bind {p : Prop} [Decidable p] (fault : Fault) (check : Except Fault Unit) :
    ((if p then .ok () else .error fault) >>= fun _ => check) =
      if p then check else .error fault := by
  split
  · rfl
  · rfl

theorem refusedCleanly_eraseInPlace :
    RefusedCleanly (eraseInPlace offset len : InPlace (MaskedState n) Unit)
      (checkWindow offset len) :=
  .of_check _ fun _ => refusedAs_forM (fun _ => refusedAs_modify _) _

theorem refusedCleanly_addSharesInPlace :
    RefusedCleanly (addSharesInPlace shares offset)
      (if EvenShares shares then checkWindow offset (leadLength shares)
        else .error .shareLengths) := by
  rw [← ite_bind]
  exact .check_bind (checkShareLengths shares) fun _ => .of_check _ fun _ => refusedAs_modify _

/-- The window is erased before the shares are compared, so it is checked before them. -/
theorem refusedAs_overwriteShares :
    RefusedAs (overwriteShares shares offset)
      (if offset + leadLength shares ≤ 40 then
          if EvenShares shares then .ok () else .error .shareLengths
        else .error (.window offset (leadLength shares))) := by
  have h := refusedAs_bind (refusedCleanly_eraseInPlace offset (leadLength shares)).refused
    fun _ => (refusedCleanly_addSharesInPlace shares offset).refused
  -- the window is checked by both steps, and the second time it is known to fit
  by_cases hle : offset + leadLength shares ≤ 40
  · rw [checkWindow_of_le hle] at h
    rw [if_pos hle]
    exact h
  · rw [checkWindow_of_lt (Nat.lt_of_not_le hle)] at h
    rw [if_neg hle]
    exact h

/-- The shares as they are left when replacing their bytes is refused. If this is not for the window,
    then the window has been erased. -/
def erasedFirst (x : MaskedState n) : MaskedState n :=
  if offset + leadLength shares ≤ 40 then
    x.map (·.setFrom offset (List.replicate (leadLength shares) 0))
  else x

theorem eq_erasedFirst_of_refused {x t : MaskedState n} {fault : Fault}
    (h : (overwriteShares shares offset).run x = .error fault t) :
    t = erasedFirst shares offset x := by
  have herase := refusedCleanly_eraseInPlace (n := n) offset (leadLength shares)
  unfold erasedFirst
  by_cases hle : offset + leadLength shares ≤ 40
  -- only the second step can have been refused, and it keeps what the first one has left
  · rw [overwriteShares, run_bind_of_ok (run_eraseInPlace hle x)] at h
    rw [if_pos hle]
    exact (refusedCleanly_addSharesInPlace shares offset).kept _ t fault h
  · have hrefused := herase.refused
    rw [checkWindow_of_lt (Nat.lt_of_not_le hle)] at hrefused
    obtain ⟨u, hu⟩ := exists_run_of_refusedAs_error hrefused x
    rw [overwriteShares, run_bind_of_error hu] at h
    cases h
    rw [if_neg hle]
    exact herase.kept x t _ hu

theorem byte_erasedFirst (x : MaskedState n) (i : Fin n) (q : Nat) :
    ((erasedFirst shares offset x).get i).byte q =
      if offset + leadLength shares ≤ 40 ∧ offset ≤ q ∧ q < offset + leadLength shares then 0
      else (x.get i).byte q := by
  unfold erasedFirst
  by_cases hle : offset + leadLength shares ≤ 40
  · have hfits : offset + (List.replicate (leadLength shares) (0 : UInt8)).length ≤ 40 := by
      rw [List.length_replicate]
      exact hle
    have hget : (x.map (·.setFrom offset (List.replicate (leadLength shares) 0))).get i =
        (x.get i).setFrom offset (List.replicate (leadLength shares) 0) :=
      Vector.getElem_map _ i.isLt
    rw [if_pos hle, hget, State.byte_setFrom _ _ hfits, List.length_replicate]
    by_cases hq : offset ≤ q ∧ q < offset + leadLength shares
    · have hlt : q - offset < leadLength shares := by omega
      rw [if_pos hq, if_pos ⟨hle, hq⟩]
      simp [hlt]
    · rw [if_neg hq, if_neg fun h => hq h.2]
  · rw [if_neg hle, if_neg fun h => hle h.1]

end shares

/-! ### Operations with a tape and a buffer -/

namespace Place

/-- An operation on the shares is refused as it is, wherever it is run. -/
theorem refusedAs_onShares {op : InPlace (MaskedState n) Unit} {check : Except Fault Unit}
    (h : RefusedAs op check) : RefusedAs (onShares op) check := by
  intro p
  have hrun : AgreeChecked _ (op.outcome p.state) check := h p.state
  show AgreeChecked _ ((onShares op).outcome p) check
  cases hop : op.run p.state with
  | ok u x =>
    rw [outcome_of_ok hop] at hrun
    rw [outcome_of_ok (run_onShares_of_ok hop)]
    cases hrun
    exact .ok trivial
  | error fault x =>
    rw [outcome_of_error hop] at hrun
    rw [outcome_of_error (run_onShares_of_error hop)]
    cases hrun
    exact .refused fault

/-- What a refused operation leaves of the shares is all that it can have changed. -/
theorem exists_of_onShares_refused {op : InPlace (MaskedState n) Unit} {p t : Place n}
    {fault : Fault} (h : (onShares op).run p = .error fault t) :
    ∃ x, op.run p.state = .error fault x ∧ t = { p with state := x } := by
  cases hop : op.run p.state with
  | ok u x =>
    rw [run_onShares_of_ok hop] at h
    cases h
  | error fault' x =>
    rw [run_onShares_of_error hop] at h
    cases h
    exact ⟨x, rfl, rfl⟩

theorem refusedCleanly_onShares {op : InPlace (MaskedState n) Unit} {check : Except Fault Unit}
    (h : RefusedCleanly op check) : RefusedCleanly (onShares op) check where
  refused := refusedAs_onShares h.refused
  kept p t fault hrun := by
    obtain ⟨x, hop, rfl⟩ := exists_of_onShares_refused hrun
    rw [h.kept _ _ _ hop]

theorem refusedAs_draw {α : Type} (d : Draw α) :
    RefusedAs (draw d : InPlace (Place n) α) (.ok ()) :=
  fun _ => .ok trivial

theorem refusedAs_redraw (f : MaskedState n → Draw (MaskedState n)) :
    RefusedAs (redraw f) (.ok ()) :=
  fun _ => .ok trivial

/-- Nothing that is read can be refused once it has been checked. -/
theorem refusedAs_fill (read : Place n → Bytes) :
    RefusedAs (do fill (read (← get)) : InPlace (Place n) Bytes) (.ok ()) :=
  fun _ => .ok trivial

section operations

variable (data : Bytes) (offset len : Nat)

theorem refusedCleanly_permute (rounds : Nat) :
    RefusedCleanly (permute rounds : InPlace (Place n) Unit) (checkRounds rounds) :=
  .of_check _ fun _ => refusedAs_bind (refusedAs_redraw _) fun _ => refusedAs_redraw _

theorem refusedCleanly_remask :
    RefusedCleanly (remask : InPlace (Place n) Unit) (checkShares .stateShares n) :=
  .of_check _ fun _ => refusedAs_redraw _

theorem refusedCleanly_addBytes :
    RefusedCleanly (addBytes data offset : InPlace (Place n) Unit)
      (checkWindow offset data.length) :=
  .of_check _ fun _ => refusedAs_forM (fun _ => refusedAs_bind (refusedAs_draw _) fun _ =>
    refusedAs_onShares (refusedAs_modify _)) _

/-- The window is checked twice, and the second check is passed if the first one is. So nothing is
    refused behind the erasing. -/
theorem refusedCleanly_overwriteBytes :
    RefusedCleanly (overwriteBytes data offset : InPlace (Place n) Unit)
      (checkWindow offset data.length) := by
  have herase := refusedCleanly_onShares (refusedCleanly_eraseInPlace (n := n) offset data.length)
  have hadd := (refusedCleanly_addBytes (n := n) data offset).refused
  by_cases hle : offset + data.length ≤ 40
  · rw [checkWindow_of_le hle] at hadd herase ⊢
    exact herase.bind fun _ => hadd
  · rw [checkWindow_of_lt (Nat.lt_of_not_le hle)] at hadd herase ⊢
    refine ⟨refusedAs_bind herase.refused fun _ => hadd, fun p t fault hrun => ?_⟩
    obtain ⟨u, hu⟩ := exists_run_of_refusedAs_error herase.refused p
    rw [overwriteBytes, run_bind_of_error hu] at hrun
    cases hrun
    exact herase.kept p t _ hu

theorem refusedCleanly_extractBytes :
    RefusedCleanly (extractBytes offset len : InPlace (Place n) Bytes) (checkWindow offset len) :=
  .of_check _ fun _ => refusedAs_fill _

theorem refusedCleanly_extractAdd (room : Nat) :
    RefusedCleanly (extractAdd data room offset : InPlace (Place n) Bytes)
      (if data.length = room then checkWindow offset data.length
        else .error .bufferLengths) := by
  rw [← ite_bind]
  exact .check_bind (checkRoom data room) fun _ => .of_check _ fun _ => refusedAs_fill _

end operations

end Place

/-! ### The verdict on a command -/

/-- For which reason a command is refused, if it is. -/
def Command.verdict : Command n → Except Fault Unit
  | .permute rounds => if 1 ≤ rounds ∧ rounds ≤ 12 then .ok () else .error (.rounds rounds)
  | .remask => if 2 ≤ n ∧ n ≤ 4 then .ok () else .error (.stateShares n)
  | .add data offset | .overwrite data offset =>
    if offset + data.length ≤ 40 then .ok () else .error (.window offset data.length)
  | .zero offset len | .extract offset len =>
    if offset + len ≤ 40 then .ok () else .error (.window offset len)
  -- the lengths of the buffers come before the window
  | .extractAdd data room offset =>
    if data.length = room then
      if offset + data.length ≤ 40 then .ok () else .error (.window offset data.length)
    else .error .bufferLengths
  -- the lengths of the shares come before the window
  | .addShares shares offset =>
    if EvenShares shares then
      if offset + leadLength shares ≤ 40 then .ok ()
      else .error (.window offset (leadLength shares))
    else .error .shareLengths
  -- and here they come behind it
  | .overwriteShares shares offset =>
    if offset + leadLength shares ≤ 40 then
      if EvenShares shares then .ok () else .error .shareLengths
    else .error (.window offset (leadLength shares))
  | .randomize | .erase | .count => .ok ()

/-- Whether byte `q` of the shares is erased by a command before its last check. -/
def Command.erases (q : Nat) : Command n → Bool
  | .overwriteShares shares offset =>
    offset + leadLength shares ≤ 40 ∧ offset ≤ q ∧ q < offset + leadLength shares
  | _ => false

/-- All commands but one are refused as the verdict says, and leave everything as it was. -/
theorem refusedCleanly_obey {c : Command n}
    (hc : ∀ shares offset, c ≠ .overwriteShares shares offset) :
    RefusedCleanly (Place.obey c) c.verdict := by
  have hreply : ∀ {α : Type} {op : InPlace (Place n) α} {check : Except Fault Unit} {f : α → Reply},
      RefusedCleanly op check → RefusedCleanly (op >>= fun a => pure (f a)) check :=
    fun hop => hop.bind fun _ => refusedAs_pure _
  cases c with
  | permute rounds => exact hreply (Place.refusedCleanly_permute rounds)
  | randomize => exact hreply (Place.refusedAs_redraw _).cleanly
  | remask => exact hreply Place.refusedCleanly_remask
  | add data offset => exact hreply (Place.refusedCleanly_addBytes data offset)
  | overwrite data offset => exact hreply (Place.refusedCleanly_overwriteBytes data offset)
  | zero offset len =>
    exact hreply (Place.refusedCleanly_onShares (refusedCleanly_eraseInPlace offset len))
  | erase => exact hreply (Place.refusedAs_onShares (refusedAs_modify _)).cleanly
  | addShares shares offset =>
    exact hreply (Place.refusedCleanly_onShares (refusedCleanly_addSharesInPlace shares offset))
  | overwriteShares shares offset => exact absurd rfl (hc shares offset)
  | extract offset len => exact hreply (Place.refusedCleanly_extractBytes offset len)
  | extractAdd data room offset => exact hreply (Place.refusedCleanly_extractAdd data offset room)
  | count => exact (refusedAs_pure _).cleanly

theorem refusedAs_obey (c : Command n) : RefusedAs (Place.obey c) c.verdict := by
  cases c with
  | overwriteShares shares offset =>
    exact refusedAs_bind_ok (Place.refusedAs_onShares (refusedAs_overwriteShares shares offset))
      fun _ => refusedAs_pure _
  | _ => exact (refusedCleanly_obey (by rintro _ _ ⟨⟩)).refused

/-- A caller who goes back to a copy is refused for the same reasons. -/
theorem obey_eq_error_iff (h : Holder n) (c : Command n) (fault : Fault) :
    h.obey c = .error fault ↔ c.verdict = .error fault := by
  have hrefused : AgreeChecked _ ((Place.obey c).outcome ⟨h, []⟩) c.verdict := refusedAs_obey c _
  unfold Holder.obey
  generalize (Place.obey c).outcome ⟨h, []⟩ = outcome at hrefused
  generalize c.verdict = verdict at hrefused
  cases hrefused with
  | ok _ => exact ⟨nofun, nofun⟩
  | refused fault' =>
    constructor
    · rintro ⟨⟩
      rfl
    · rintro ⟨⟩
      rfl

/-- What a refusal leaves: the tape and the buffer, and the shares but for what has been erased. -/
theorem exists_of_refused (p : Place n) {c : Command n} {fault : Fault}
    (hc : c.verdict = .error fault) :
    ∃ x, (Place.obey c).run p = .error fault { p with state := x } ∧
      ∀ i q, (x.get i).byte q = if c.erases q then 0 else (p.state.get i).byte q := by
  have hrefused := refusedAs_obey c
  rw [hc] at hrefused
  obtain ⟨left, hleft⟩ := exists_run_of_refusedAs_error hrefused p
  -- all but one of the commands keep the shares
  have hclean : (∀ shares offset, c ≠ .overwriteShares shares offset) → left = p :=
    fun h => (refusedCleanly_obey h).kept p left fault hleft
  cases c with
  | overwriteShares shares offset =>
    obtain ⟨x, hx, rfl⟩ := Place.exists_of_onShares_refused (run_of_run_bind_pure hleft)
    refine ⟨x, hleft, fun i q => ?_⟩
    rw [eq_erasedFirst_of_refused shares offset hx, byte_erasedFirst]
    simp only [Command.erases, decide_eq_true_eq]
  | _ =>
    obtain rfl := hclean (by rintro _ _ ⟨⟩)
    exact ⟨left.state, hleft, fun i q => rfl⟩

/-- Shares whose bytes are the same but for some that have been erased are the same if these were
    zeros. -/
theorem eq_iff_of_erased {x y : MaskedState n} {e : Nat → Bool}
    (h : ∀ i q, (y.get i).byte q = if e q then 0 else (x.get i).byte q) :
    y = x ↔ ∀ i q, e q → (x.get i).byte q = 0 := by
  constructor
  · rintro rfl i q hq
    rw [h i q, if_pos hq]
  · intro hzero
    refine Vector.ext fun i hi => State.ext_byte fun q _ => ?_
    have hbyte := h ⟨i, hi⟩ q
    -- what has been erased is a zero now, and was one before
    by_cases hq : e q
    · rw [if_pos hq, ← hzero ⟨i, hi⟩ q hq] at hbyte
      exact hbyte
    · rw [if_neg hq] at hbyte
      exact hbyte

/-- A masked state is refused a command exactly if the verdict gives a reason, and for this reason.
    The tape and the buffer are then left as they were. So are the shares, but for the bytes that
    have been erased by then: those are zeros in every share, and everything is as it was only if
    they had been zeros before. -/
theorem refused_in_place (p : Place n) (c : Command n) :
    (c.verdict = .ok () → ∃ reply next, (Place.obey c).run p = .ok reply next) ∧
      ∀ fault, c.verdict = .error fault →
        ∃ left, (Place.obey c).run p = .error fault left ∧
          left.tape = p.tape ∧ left.buffer = p.buffer ∧
          (∀ i q, (left.state.get i).byte q =
            if c.erases q then 0 else (p.state.get i).byte q) ∧
          (left = p ↔ ∀ i q, c.erases q → (p.state.get i).byte q = 0) := by
  refine ⟨fun hc => ?_, fun fault hc => ?_⟩
  · have hrefused := refusedAs_obey c
    rw [hc] at hrefused
    exact exists_run_of_refusedAs_ok hrefused p
  · obtain ⟨x, hrun, hbytes⟩ := exists_of_refused p hc
    refine ⟨{ p with state := x }, hrun, rfl, rfl, hbytes, ?_⟩
    rw [← eq_iff_of_erased hbytes]
    constructor
    · intro h
      exact congrArg (·.state) h
    · rintro rfl
      rfl

/-- Two shares whose last word has no byte that is zero. -/
def samplePlace : Place 2 where
  state := #v[⟨1, 2, 3, 4, 0x5050505050505050⟩, ⟨5, 6, 7, 8, 0x0505050505050505⟩]
  tape := .cycle #[1, 2, 3]
  buffer := [7]

/-- Data in two shares, of different lengths but for the last command. The window does not fit for the
    first command, and fits for the others. To add the data changes nothing, and to replace bytes by
    them erases the window, unless the lengths are the same. -/
theorem refused_in_place_uneven_shares :
    let replace (offset : Nat) : Command 2 := .overwriteShares #v[[1, 2], [3]] offset
    let add : Command 2 := .addShares #v[[1, 2], [3]] 38
    let even : Command 2 := .overwriteShares #v[[1, 2], [3, 4]] 38
    ((replace 39).verdict = .error (.window 39 2) ∧ add.verdict = .error .shareLengths ∧
        (replace 38).verdict = .error .shareLengths ∧ (replace 38).erases 38 ∧
        even.verdict = .ok ()) ∧
      (Place.obey (replace 39)).run samplePlace = .error (.window 39 2) samplePlace ∧
      (Place.obey add).run samplePlace = .error .shareLengths samplePlace ∧
      (∃ left, (Place.obey (replace 38)).run samplePlace = .error .shareLengths left ∧
        left.tape = samplePlace.tape ∧ left.buffer = [7] ∧
        (left.state.get 0).byte 37 = 0x50 ∧ (left.state.get 0).byte 38 = 0 ∧
        left ≠ samplePlace) ∧
      ∃ reply next, (Place.obey even).run samplePlace = .ok reply next := by
  intro replace add even
  have hwindow : (replace 39).verdict = .error (.window 39 2) := rfl
  have hadd : add.verdict = .error .shareLengths := rfl
  have hlengths : (replace 38).verdict = .error .shareLengths := rfl
  have herased : (replace 38).erases 38 = true := rfl
  have heven : even.verdict = .ok () := rfl
  -- no byte is erased by the first two commands, so nothing can have been lost
  obtain ⟨_, hrun, _, _, _, hkept⟩ := (refused_in_place samplePlace (replace 39)).2 _ hwindow
  obtain rfl := hkept.2 (by rintro i q ⟨⟩)
  obtain ⟨_, hrun', _, _, _, hkept'⟩ := (refused_in_place samplePlace add).2 _ hadd
  obtain rfl := hkept'.2 (by rintro i q ⟨⟩)
  obtain ⟨left, hleft, htape, hbuffer, hbytes, hsame⟩ :=
    (refused_in_place samplePlace (replace 38)).2 _ hlengths
  refine ⟨⟨hwindow, hadd, hlengths, herased, heven⟩, hrun, hrun',
    ⟨left, hleft, htape, hbuffer, hbytes 0 37, hbytes 0 38, fun h => ?_⟩,
    (refused_in_place samplePlace even).1 heven⟩
  exact absurd (hsame.1 h 0 38 herased) (by decide)

/-- The shares are not what they were when it is refused to replace two bytes by shared data of
    different lengths. -/
theorem overwriteShares_erases_refused :
    let c : Command 2 := .overwriteShares #v[[1, 2], [3]] 38
    ∃ left, (Place.obey c).run samplePlace = .error .shareLengths left ∧
      left.state = #v[⟨1, 2, 3, 4, 0x5050505050500000⟩, ⟨5, 6, 7, 8, 0x0505050505050000⟩] ∧
      left.state ≠ samplePlace.state := by
  have hleft : clearWord samplePlace.state 4 (lanes 38 2 4) =
      #v[⟨1, 2, 3, 4, 0x5050505050500000⟩, ⟨5, 6, 7, 8, 0x0505050505050000⟩] := by
    decide +kernel
  refine ⟨_, rfl, hleft, fun h => ?_⟩
  exact absurd (hleft.symm.trans h) (by decide)

end MaskedState

end Ascon
