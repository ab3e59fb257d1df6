import Ascon.Fault

/-! # Operations in place

  An object that is changed where it lies has no earlier version of itself to fall
  back on. What an operation has changed by the time it is refused stays changed.

  - An operation in place is run on an object and leaves an object, also when it is
    refused. It is written down as the checks and changes that it makes, in their
    order. So it can leave something half done only if a check comes behind a
    change.
  - `InPlace.outcome` is what comes of it for a caller who has kept a copy. When
    the operation is refused he goes back to the copy, and does not look at what
    was left.
-/

namespace Ascon

/-- An operation on an object of type `σ` where it lies. -/
abbrev InPlace (σ : Type) := EStateM Fault σ

namespace InPlace

variable {σ τ α : Type}

/-- Goes on if a check is passed. -/
def check (c : Except Fault Unit) : InPlace σ Unit := fun s =>
  match c with
  | .ok _ => .ok () s
  | .error fault => .error fault s

/-- An operation on a part of an object. What it leaves of the part, it leaves of the object. -/
def onPart (get : σ → τ) (put : σ → τ → σ) (op : InPlace τ α) : InPlace σ α := fun s =>
  match op.run (get s) with
  | .ok a t => .ok a (put s t)
  | .error fault t => .error fault (put s t)

/-- What comes of an operation for a caller who goes back to a copy when he is refused. -/
def outcome (op : InPlace σ α) (s : σ) : Except Fault (α × σ) :=
  match op.run s with
  | .ok a t => .ok (a, t)
  | .error fault _ => .error fault

/-- The object that such a caller is left with, for an operation that gives no answer. -/
def result (op : InPlace σ Unit) (s : σ) : Except Fault σ := (op.outcome s).map (·.2)

theorem check_ok : (check (.ok ()) : InPlace σ Unit) = pure () := rfl

theorem run_check_error (fault : Fault) (s : σ) :
    (check (.error fault) : InPlace σ Unit).run s = .error fault s := rfl

section bind

variable {β : Type} {op : InPlace σ α} {f : α → InPlace σ β} {s t : σ}

theorem run_bind_of_ok {a : α} (h : op.run s = .ok a t) : (op >>= f).run s = (f a).run t := by
  show EStateM.bind op f s = _
  unfold EStateM.bind
  rw [show op s = .ok a t from h]
  rfl

/-- What an operation leaves when it is refused is left by all that was to go on from it. -/
theorem run_bind_of_error {fault : Fault} (h : op.run s = .error fault t) :
    (op >>= f).run s = .error fault t := by
  show EStateM.bind op f s = _
  unfold EStateM.bind
  rw [show op s = .error fault t from h]

end bind

section part

variable {get : σ → τ} {put : σ → τ → σ} {op : InPlace τ α} {s : σ} {t : τ}

theorem run_onPart_of_ok {a : α} (h : op.run (get s) = .ok a t) :
    (onPart get put op).run s = .ok a (put s t) := by
  show onPart get put op s = _
  unfold onPart
  rw [h]

theorem run_onPart_of_error {fault : Fault} (h : op.run (get s) = .error fault t) :
    (onPart get put op).run s = .error fault (put s t) := by
  show onPart get put op s = _
  unfold onPart
  rw [h]

end part

theorem outcome_of_ok {op : InPlace σ α} {s t : σ} {a : α} (h : op.run s = .ok a t) :
    op.outcome s = .ok (a, t) := by
  unfold outcome
  rw [h]

theorem outcome_of_error {op : InPlace σ α} {s t : σ} {fault : Fault}
    (h : op.run s = .error fault t) : op.outcome s = .error fault := by
  unfold outcome
  rw [h]

/-- A copy may be gone back to once for a sequence of operations, or at each of them. -/
theorem outcome_bind {β : Type} (op : InPlace σ α) (f : α → InPlace σ β) (s : σ) :
    (op >>= f).outcome s = (op.outcome s >>= fun p => (f p.1).outcome p.2) := by
  cases h : op.run s with
  | error fault t => rw [outcome_of_error (run_bind_of_error h), outcome_of_error h]; rfl
  | ok a t =>
    rw [outcome_of_ok h, outcome, run_bind_of_ok h]
    rfl

theorem result_bind (op op' : InPlace σ Unit) (s : σ) :
    (op >>= fun _ => op').result s = (op.result s >>= fun t => op'.result t) := by
  unfold result
  rw [outcome_bind]
  cases op.outcome s with
  | error fault => rfl
  | ok p => rfl

end InPlace

end Ascon
