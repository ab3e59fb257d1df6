import Ascon.Random.Tape

/-! # Agreement of computations

  Several definitions of this library are written once and run in several
  monads: over a plain state, which can only be refused, over a masked state,
  which also draws from a tape, and, for the purpose of proofs, without any
  checks at all. What the runs have to do with each other is said by relating
  computations of two monads.

  - `Agree R x y` relates a computation of one monad with one of another
    whenever their results are related by `R`. What else it means is up to the
    pair of monads: a checked computation agrees with an unchecked one only if
    it is not refused, two checked ones agree also if both are refused for the
    same reason, and a tape must never make a difference.
  - Two rules, one for `pure` and one for `>>=`, take agreement through a whole
    definition.
-/

namespace Ascon

/-- Two monads whose computations can be compared. -/
class Agreement (m₁ m₂ : Type → Type) [Monad m₁] [Monad m₂] where
  /-- The computations agree, and their results are related by `R`. -/
  Agree {α β : Type} (R : α → β → Prop) (x : m₁ α) (y : m₂ β) : Prop
  /-- Related values agree. -/
  agree_pure {α β : Type} {R : α → β → Prop} {a : α} {b : β} (h : R a b) :
    Agree R (pure a) (pure b)
  /-- Computations that go on from related results in the same way agree. -/
  agree_bind {α β γ δ : Type} {R : α → β → Prop} {S : γ → δ → Prop} {x : m₁ α} {y : m₂ β}
    {f : α → m₁ γ} {g : β → m₂ δ} (hx : Agree R x y)
    (hf : ∀ a b, R a b → Agree S (f a) (g b)) : Agree S (x >>= f) (y >>= g)

export Agreement (Agree agree_pure agree_bind)

/-- The relation on results that consist of an output, which is the same, and a related rest. -/
def SameOutput {α β γ : Type} (R : β → γ → Prop) (a : α × β) (b : α × γ) : Prop :=
  a.1 = b.1 ∧ R a.2 b.2

/-! ### Checked computations -/

/-- Two computations that may be refused agree if both succeed, or both are refused for the same
    reason. -/
inductive AgreeChecked {α β : Type} (R : α → β → Prop) :
    Except Fault α → Except Fault β → Prop where
  | ok {a : α} {b : β} (h : R a b) : AgreeChecked R (.ok a) (.ok b)
  | refused (fault : Fault) : AgreeChecked R (.error fault) (.error fault)

instance checkedAgreement : Agreement (Except Fault) (Except Fault) where
  Agree := AgreeChecked
  agree_pure h := .ok h
  agree_bind hx hf := by
    cases hx with
    | ok h => exact hf _ _ h
    | refused fault => exact .refused fault

/-- A checked computation agrees with an unchecked one if it succeeds. -/
instance uncheckedAgreement : Agreement (Except Fault) Id where
  Agree R x y := ∃ a, x = .ok a ∧ R a y
  agree_pure h := ⟨_, rfl, h⟩
  agree_bind hx hf := by
    obtain ⟨a, rfl, h⟩ := hx
    exact hf a _ h

/-- A checked computation succeeds if it agrees with one that does. -/
theorem exists_ok_of_agree {α β : Type} {R : α → β → Prop} {x : Except Fault α}
    {y : Except Fault β} {b : β} (h : Agree R x y) (hy : y = .ok b) : ∃ a, x = .ok a ∧ R a b := by
  subst hy
  cases h with
  | ok h => exact ⟨_, rfl, h⟩

/-! ### Computations that draw -/

/-- Whatever is on the tape, the outcome of the draw has the property `P`. -/
def Draw.Yields {α : Type} (x : Draw α) (P : α → Prop) : Prop :=
  ∀ tape, P (x.run tape).1

/-- A computation that draws agrees with one that does not if it does so on every tape. -/
instance checkedDrawAgreement : Agreement CheckedDraw (Except Fault) where
  Agree R x y := ∀ tape, Agree (fun a b => R a.1 b) (x.run tape) y
  agree_pure h _ := .ok h
  agree_bind hx hf tape := by
    rw [StateT.run_bind]
    exact agree_bind (hx tape) fun a b h => hf a.1 b h a.2

section draws

variable {α β γ δ : Type} {P : α → Prop} {Q : β → Prop}

theorem yields_pure {a : α} (h : P a) : Draw.Yields (pure a) P :=
  fun _ => h

theorem yields_bind {x : Draw α} {f : α → Draw β} (hx : x.Yields P)
    (hf : ∀ a, P a → (f a).Yields Q) : Draw.Yields (x >>= f) Q :=
  fun tape => hf _ (hx tape) _

/-- A draw may stand in a checked computation where the other side has a value. -/
theorem agree_draw {R : α → β → Prop} {x : Draw α} {b : β} (hx : x.Yields fun a => R a b) :
    Agree R (liftM x : CheckedDraw α) (pure b : Except Fault β) :=
  fun tape => .ok (hx tape)

/-- A draw may come first in a checked computation where the other side has nothing. -/
theorem agree_draw_bind {R : β → γ → Prop} {x : Draw α} {f : α → CheckedDraw β}
    {y : Except Fault γ} (hx : x.Yields P) (hf : ∀ a, P a → Agree R (f a) y) :
    Agree R (liftM x >>= f) y :=
  fun tape => hf _ (hx tape) _

/-- A check that draws nothing may stand in a computation that draws. -/
theorem agree_lift {R : α → β → Prop} {x : Except Fault α} {y : Except Fault β}
    (h : Agree R x y) : Agree R (liftM x : CheckedDraw α) y := by
  intro tape
  cases h with
  | ok h => exact .ok h
  | refused fault => exact .refused fault

/-- A check agrees with itself. -/
theorem agree_refl (x : Except Fault α) : Agree Eq x x := by
  cases x with
  | error fault => exact .refused fault
  | ok a => exact .ok rfl

/-- A run of a computation that agrees with another one up to a view of the results is that other
    one, once its result is viewed and the tape is left aside. -/
theorem map_run_of_agree {v : α → β} {x : CheckedDraw α} {y : Except Fault β}
    (h : Agree (fun a b => v a = b) x y) (tape : Tape) :
    (x.run tape).map (fun p => v p.1) = y := by
  -- both succeed or both are refused
  have hrun : AgreeChecked (fun p b => v p.1 = b) (x.run tape) y := h tape
  cases hx : x.run tape with
  | error fault =>
    rw [hx] at hrun
    cases hrun
    rfl
  | ok p =>
    rw [hx] at hrun
    cases hrun with
    | ok hv => exact congrArg Except.ok hv

/-- A computation that agrees with a value succeeds on every tape. -/
theorem exists_run_of_agree_pure {R : α → β → Prop} {x : CheckedDraw α} {b : β}
    (h : Agree R x (pure b : Except Fault β)) (tape : Tape) :
    ∃ p, x.run tape = .ok p ∧ R p.1 b := by
  have hrun : AgreeChecked (fun p b => R p.1 b) (x.run tape) (.ok b) := h tape
  cases hx : x.run tape with
  | error fault =>
    rw [hx] at hrun
    cases hrun
  | ok p =>
    rw [hx] at hrun
    cases hrun with
    | ok hr => exact ⟨p, rfl, hr⟩

/-- A computation that agrees with a value may come first where the other side has nothing. -/
theorem agree_value_bind {R : α → β → Prop} {S : γ → δ → Prop} {x : CheckedDraw α} {b : β}
    {f : α → CheckedDraw γ} {y : Except Fault δ}
    (hx : Agree R x (pure b : Except Fault β)) (hf : ∀ a, R a b → Agree S (f a) y) :
    Agree S (x >>= f) y := by
  intro tape
  obtain ⟨p, hrun, hp⟩ := exists_run_of_agree_pure hx tape
  rw [StateT.run_bind, hrun]
  exact hf p.1 hp p.2

/-- What is made of a result may be left to one side. -/
theorem agree_bind_pure {R : α → β → Prop} {S : γ → β → Prop} {x : CheckedDraw α}
    {y : Except Fault β} {f : α → γ} (hx : Agree R x y) (hf : ∀ a b, R a b → S (f a) b) :
    Agree S (x >>= fun a => pure (f a)) y := by
  rw [← bind_pure y]
  exact agree_bind hx fun a b h => agree_pure (hf a b h)

end draws

end Ascon
