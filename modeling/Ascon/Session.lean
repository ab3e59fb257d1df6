import Ascon.Fault

/-! # Sessions

  A session drives one object through a list of steps. It is the common shape
  of every run in this library: a sponge that absorbs and squeezes in turn, a
  masked state that is permuted and refreshed, a cipher that sends messages
  under a moving nonce.

  - What an object does with a command is a function of the object and the
    command, which answers in `Except Fault`. The session adds one rule: it keeps
    a copy during every command, and goes back to it after a refusal. This says
    nothing about an object that is changed where it lies. What a refusal can
    leave of one is said by its operations in place.
  - `save` keeps a copy of the object and `restore` goes back to it. Before
    any `save` the copy is the object that the session started with.
-/

namespace Ascon

/-- An object under way, with the copy to which `restore` goes back. -/
structure Session (σ : Type) where
  current : σ
  /-- The copy that was kept last. -/
  kept : σ

namespace Session

variable {σ κ ρ : Type}

/-- One step of a session whose object obeys commands of type `κ`. -/
inductive Step (κ : Type) where
  | command (c : κ)
  | save
  | restore
deriving Repr

/-- What a step of a session answers. -/
inductive Answer (ρ : Type) where
  | reply (r : ρ)
  | refused (fault : Fault)
  /-- The step was not addressed to the object. -/
  | silent
deriving Repr

/-- A session that starts with the given object. -/
def start (object : σ) : Session σ := ⟨object, object⟩

/-- One step of a session, for an object that obeys as `obey` says. -/
def perform (obey : σ → κ → Except Fault (ρ × σ)) (s : Session σ) :
    Step κ → Answer ρ × Session σ
  | .command c =>
    match obey s.current c with
    | .ok (r, next) => (.reply r, { s with current := next })
    | .error fault => (.refused fault, s)
  | .save => (.silent, { s with kept := s.current })
  | .restore => (.silent, { s with current := s.kept })

/-- All steps of a session in order: each answer with the object as the step left it. -/
def trace (obey : σ → κ → Except Fault (ρ × σ)) : Session σ → List (Step κ) → List (Answer ρ × σ)
  | _, [] => []
  | s, step :: steps =>
    let (answer, next) := s.perform obey step
    (answer, next.current) :: trace obey next steps

theorem perform_of_error {obey : σ → κ → Except Fault (ρ × σ)} {s : Session σ} {c : κ}
    {fault : Fault} (h : obey s.current c = .error fault) :
    s.perform obey (.command c) = (.refused fault, s) := by
  simp [perform, h]

theorem perform_of_ok {obey : σ → κ → Except Fault (ρ × σ)} {s : Session σ} {c : κ}
    {r : ρ} {next : σ} (h : obey s.current c = .ok (r, next)) :
    s.perform obey (.command c) = (.reply r, { s with current := next }) := by
  simp [perform, h]

end Session

end Ascon
