import Ascon.Lane
import Ascon.Session

/-! # Sessions through a view

  When what can be seen of an object obeys commands just as the object does,
  then a whole session seen through this view is a session of its own: the same
  answers, the same refusals, and at every step the view of the object. Copies
  that are kept and gone back to do not disturb this.

  A caller who has a buffer counts it to the object (`obeyInto`). It is then kept
  when a command is refused, as everything else is.
-/

namespace Ascon.Session

variable {σ τ κ κ' ρ ρ' : Type}

/-- The same step with its command translated. -/
def Step.map (f : κ → κ') : Step κ → Step κ'
  | .command c => .command (f c)
  | .save => .save
  | .restore => .restore

theorem Step.map_id (step : Step κ) : step.map id = step := by
  cases step <;> rfl

/-- The same answer with its reply translated. -/
def Answer.map (g : ρ → ρ') : Answer ρ → Answer ρ'
  | .reply r => .reply (g r)
  | .refused fault => .refused fault
  | .silent => .silent

@[simp] theorem Answer.map_id : (Answer.map id : Answer ρ → Answer ρ) = id := by
  funext answer
  cases answer <;> rfl

/-- What can be seen of a session. -/
def view (v : σ → τ) (s : Session σ) : Session τ := ⟨v s.current, v s.kept⟩

/-- One step of a session, seen through a view under which commands are obeyed alike. -/
theorem perform_view {obey : σ → κ → Except Fault (ρ × σ)}
    {obey' : τ → κ' → Except Fault (ρ' × τ)} {v : σ → τ} {f : κ → κ'} {g : ρ → ρ'}
    {P : κ → Prop}
    (h : ∀ s c, P c → (obey s c).map (Prod.map g v) = obey' (v s) (f c))
    (s : Session σ) {step : Step κ} (hstep : ∀ c, step = .command c → P c) :
    Prod.map (Answer.map g) (view v) (s.perform obey step) =
      (s.view v).perform obey' (step.map f) := by
  cases step with
  | save => rfl
  | restore => rfl
  | command c =>
    -- both sides obey or refuse together
    have hc : (obey s.current c).map (Prod.map g v) = obey' (s.view v).current (f c) :=
      h s.current c (hstep c rfl)
    cases hobey : obey s.current c with
    | error fault =>
      have hview : obey' (s.view v).current (f c) = .error fault := by rw [← hc, hobey]; rfl
      rw [perform_of_error hobey, Step.map, perform_of_error hview]
      rfl
    | ok p =>
      have hview : obey' (s.view v).current (f c) = .ok (g p.1, v p.2) := by rw [← hc, hobey]; rfl
      rw [perform_of_ok hobey, Step.map, perform_of_ok hview]
      rfl

/-- A whole session, seen through a view under which commands are obeyed alike. -/
theorem trace_view {obey : σ → κ → Except Fault (ρ × σ)}
    {obey' : τ → κ' → Except Fault (ρ' × τ)} {v : σ → τ} {f : κ → κ'} {g : ρ → ρ'}
    {P : κ → Prop}
    (h : ∀ s c, P c → (obey s c).map (Prod.map g v) = obey' (v s) (f c))
    (s : Session σ) {steps : List (Step κ)} (hsteps : ∀ c, .command c ∈ steps → P c) :
    (trace obey s steps).map (Prod.map (Answer.map g) v) =
      trace obey' (s.view v) (steps.map (Step.map f)) := by
  induction steps generalizing s with
  | nil => rfl
  | cons step steps ih =>
    have hhead : ∀ c, step = .command c → P c := by
      rintro c rfl
      exact hsteps c List.mem_cons_self
    have htail : ∀ c, .command c ∈ steps → P c :=
      fun c hc => hsteps c (List.mem_cons_of_mem _ hc)
    have hperform := perform_view h s hhead
    rw [List.map_cons, trace, trace, ← hperform, List.map_cons, ih _ htail]
    rfl

/-! ### Invariants -/

/-- What every step keeps to holds throughout a session. -/
theorem trace_forall {obey : σ → κ → Except Fault (ρ × σ)} {Inv : σ → Prop} {P : Answer ρ → Prop}
    (h : ∀ (s : Session σ) (step : Step κ), Inv s.current → Inv s.kept →
      P (s.perform obey step).1 ∧
        Inv (s.perform obey step).2.current ∧ Inv (s.perform obey step).2.kept)
    {s : Session σ} (hcurrent : Inv s.current) (hkept : Inv s.kept) (steps : List (Step κ)) :
    ∀ item ∈ trace obey s steps, P item.1 ∧ Inv item.2 := by
  induction steps generalizing s with
  | nil => exact fun item hitem => absurd hitem List.not_mem_nil
  | cons step steps ih =>
    -- the copy has to keep to the invariant as well, since the session may go back to it
    obtain ⟨hanswer, hnext, hkept'⟩ := h s step hcurrent hkept
    intro item hitem
    rw [trace] at hitem
    rcases List.mem_cons.1 hitem with rfl | hmem
    · exact ⟨hanswer, hnext⟩
    · exact ih hnext hkept' item hmem

/-- A step of a session whose object obeys every command and thereby keeps to `Inv`. -/
theorem perform_inv {obey : σ → κ → Except Fault (ρ × σ)} {Inv : σ → Prop}
    (h : ∀ s c, Inv s → ∃ r next, obey s c = .ok (r, next) ∧ Inv next)
    {s : Session σ} (hcurrent : Inv s.current) (hkept : Inv s.kept) (step : Step κ) :
    (∀ fault, (s.perform obey step).1 ≠ .refused fault) ∧
      Inv (s.perform obey step).2.current ∧ Inv (s.perform obey step).2.kept := by
  cases step with
  | save => exact ⟨fun _ => nofun, hcurrent, hcurrent⟩
  | restore => exact ⟨fun _ => nofun, hkept, hkept⟩
  | command c =>
    obtain ⟨r, next, hobey, hnext⟩ := h s.current c hcurrent
    rw [perform_of_ok hobey]
    exact ⟨fun _ => nofun, hnext, hkept⟩

/-- Over a whole session of such an object nothing is refused, and it keeps to `Inv` throughout. -/
theorem trace_inv {obey : σ → κ → Except Fault (ρ × σ)} {Inv : σ → Prop}
    (h : ∀ s c, Inv s → ∃ r next, obey s c = .ok (r, next) ∧ Inv next)
    {s : Session σ} (hcurrent : Inv s.current) (hkept : Inv s.kept) (steps : List (Step κ)) :
    ∀ item ∈ trace obey s steps, (∀ fault, item.1 ≠ .refused fault) ∧ Inv item.2 :=
  trace_forall (P := fun answer => ∀ fault, answer ≠ .refused fault)
    (fun _ step hcurrent hkept => perform_inv h hcurrent hkept step) hcurrent hkept steps

/-- A step of a session whose object keeps to `Inv` when it obeys, with replies of which `Good`
    holds. Nothing is said of the commands that it refuses. -/
theorem perform_keeps {obey : σ → κ → Except Fault (ρ × σ)} {Inv : σ → Prop} {Good : ρ → Prop}
    (h : ∀ s c r next, Inv s → obey s c = .ok (r, next) → Good r ∧ Inv next)
    {s : Session σ} (hcurrent : Inv s.current) (hkept : Inv s.kept) (step : Step κ) :
    (∀ r, (s.perform obey step).1 = .reply r → Good r) ∧
      Inv (s.perform obey step).2.current ∧ Inv (s.perform obey step).2.kept := by
  cases step with
  | save => exact ⟨fun _ => nofun, hcurrent, hcurrent⟩
  | restore => exact ⟨fun _ => nofun, hkept, hkept⟩
  | command c =>
    cases hobey : obey s.current c with
    | error fault =>
      rw [perform_of_error hobey]
      exact ⟨fun _ => nofun, hcurrent, hkept⟩
    | ok p =>
      obtain ⟨hgood, hnext⟩ := h s.current c p.1 p.2 hcurrent hobey
      rw [perform_of_ok hobey]
      refine ⟨fun r hr => ?_, hnext, hkept⟩
      cases hr
      exact hgood

/-- Over a whole session of such an object it keeps to `Inv` throughout, and `Good` holds of all
    replies. -/
theorem trace_keeps {obey : σ → κ → Except Fault (ρ × σ)} {Inv : σ → Prop} {Good : ρ → Prop}
    (h : ∀ s c r next, Inv s → obey s c = .ok (r, next) → Good r ∧ Inv next)
    {s : Session σ} (hcurrent : Inv s.current) (hkept : Inv s.kept) (steps : List (Step κ)) :
    ∀ item ∈ trace obey s steps, (∀ r, item.1 = .reply r → Good r) ∧ Inv item.2 :=
  trace_forall (P := fun answer => ∀ r, answer = .reply r → Good r)
    (fun _ step hcurrent hkept => perform_keeps h hcurrent hkept step) hcurrent hkept steps

/-! ### Callers with a buffer -/

/-- An object whose caller has a buffer, into which it writes what it puts out. -/
def obeyInto (obey : σ → κ → Except Fault (ρ × σ)) (output? : ρ → Option Bytes)
    (object : σ × Bytes) (c : κ) : Except Fault (ρ × (σ × Bytes)) :=
  (obey object.1 c).map fun p => (p.1, p.2, (output? p.1).getD object.2)

section buffer

variable {obey : σ → κ → Except Fault (ρ × σ)} {output? : ρ → Option Bytes} {s : σ}
  {buffer : Bytes} {c : κ}

theorem obeyInto_of_ok {r : ρ} {next : σ} (h : obey s c = .ok (r, next)) :
    obeyInto obey output? (s, buffer) c = .ok (r, next, (output? r).getD buffer) := by
  unfold obeyInto
  rw [h]
  rfl

theorem obeyInto_of_error {fault : Fault} (h : obey s c = .error fault) :
    obeyInto obey output? (s, buffer) c = .error fault := by
  unfold obeyInto
  rw [h]
  rfl

end buffer

end Ascon.Session
