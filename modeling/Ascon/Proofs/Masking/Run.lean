import Ascon.Masking.Command
import Ascon.Proofs.Masking.Access
import Ascon.Proofs.Session
import Ascon.Random.Generator
import Ascon.State.Command

/-! # A masked state follows the plain state

  Over any session, with any number of shares that a masked state can have and
  any tape, recombining the shares after every step gives what a plain state
  goes through.

  - Each command to a masked state has at most one counterpart among the
    commands to a plain one. Refreshing and sharing anew have none, since they
    change nothing; data in shares count as their sum.
  - What is compared at every step are the bytes that were read, the refusal if
    there was one, and the state.
-/

namespace Ascon.MaskedState

open Session

variable {n : Nat}

/-! ### Counterparts -/

/-- The command to a plain state that does the same, unless nothing is to be done. -/
def Command.counterpart : Command n → Option State.Command
  | .permute rounds => some (.permute rounds)
  | .randomize => none
  | .remask => none
  | .add data offset => some (.add data offset)
  | .overwrite data offset => some (.overwrite data offset)
  | .zero offset len => some (.zero offset len)
  | .erase => some .erase
  | .addShares shares offset => some (.add (joinShares shares) offset)
  | .overwriteShares shares offset => some (.overwrite (joinShares shares) offset)
  | .extract offset len => some (.extract offset len)
  | .extractAdd data room offset => some (.extractAdd data room offset)
  | .count => none

/-- Byte strings that are given as shares have the same length. -/
def Command.Even : Command n → Prop
  | .addShares shares _ => EvenShares shares
  | .overwriteShares shares _ => EvenShares shares
  | _ => True

/-- What a plain state does with the counterpart of a command. -/
def follow (s : State) (c : Command n) : Except Fault (Option Bytes × State) :=
  match c.counterpart with
  | some c => s.obey c
  | none => return (none, s)

/-- A masked state as a session finds it: a fresh sharing of the given state, or of the zero
    state. -/
def Holder.build (n : Nat) (init : Option State) (tape : Tape) : Except Fault (Holder n) :=
  match init with
  | some s => Holder.mask n s tape
  | none => Holder.new n tape

/-! ### One command -/

/-- What can be seen of the outcome of a command without its shares. -/
def shown (outcome : Reply × MaskedState n) : Option Bytes × State :=
  (outcome.1.output?, unmask outcome.2)

/-- Whatever is asked of a masked state, the shared state does the counterpart. -/
theorem agree_apply (hn : 2 ≤ n ∧ n ≤ 4) (x : MaskedState n) {c : Command n} (hc : c.Even) :
    Agree (fun a b => shown a = b) (apply x c) (follow (unmask x) c) := by
  have hpos : 0 < n := by omega
  -- a command that only changes the state
  have hdone : ∀ {y : CheckedDraw (MaskedState n)} {s : Except Fault State},
      Agree (fun y s => unmask y = s) y s →
      Agree (fun a b => shown a = b) (do return (.done, ← y)) (do return (none, ← s)) :=
    fun h => agree_bind h fun _ _ hy => agree_pure (Prod.ext rfl hy)
  cases c with
  | permute rounds => exact hdone (agree_permute hpos x rounds)
  -- nothing is seen of a refresh
  | randomize =>
    exact agree_draw_bind (yields_randomize hpos x) fun _ hy => agree_pure (Prod.ext rfl hy)
  | remask => exact hdone (agree_mask hn (unmask x))
  | add data offset => exact hdone (agree_addBytes hpos x data offset)
  | overwrite data offset => exact hdone (agree_overwriteBytes hpos x data offset)
  | zero offset len => exact hdone (agree_lift (agree_overwriteZeroes x offset len))
  | erase => exact agree_pure (Prod.ext rfl unmask_zeros)
  | addShares shares offset => exact hdone (agree_lift (agree_addShares x hc offset))
  | overwriteShares shares offset => exact hdone (agree_lift (agree_overwriteShares x hc offset))
  | extract offset len =>
    apply agree_bind (agree_lift (agree_extractBytes x offset len))
    intro out _ hout
    rw [← hout]
    exact agree_pure rfl
  | extractAdd data room offset =>
    apply agree_bind (agree_lift (agree_extractAdd x data room offset))
    intro out _ hout
    rw [← hout]
    exact agree_pure rfl
  | count => exact agree_pure rfl

/-- The same for a masked state together with its tape. -/
theorem obey_unmask (hn : 2 ≤ n ∧ n ≤ 4) (h : Holder n) (c : Command n) (hc : c.Even) :
    (h.obey c).map (Prod.map Reply.output? fun h => unmask h.state) =
      follow (unmask h.state) c := by
  rw [← map_run_of_agree (agree_apply hn h.state hc) h.tape, Holder.obey_eq]
  cases (apply h.state c).run h.tape with
  | error fault => rfl
  | ok p => rfl

/-! ### Sessions -/

/-- A masked state starts out as a sharing of the state that it is built from. -/
theorem build_unmask (hn : 2 ≤ n ∧ n ≤ 4) (init : Option State) (tape : Tape) :
    ∃ h, Holder.build n init tape = .ok h ∧ unmask h.state = init.getD .zero := by
  cases init with
  | none =>
    obtain ⟨p, hrun, hp⟩ := exists_run_of_agree_pure (agree_new hn) tape
    refine ⟨⟨p.1, p.2⟩, ?_, hp⟩
    show Holder.new n tape = _
    unfold Holder.new
    rw [hrun]
    rfl
  | some s =>
    obtain ⟨p, hrun, hp⟩ := exists_run_of_agree_pure (agree_mask hn s) tape
    refine ⟨⟨p.1, p.2⟩, ?_, hp⟩
    show Holder.mask n s tape = _
    unfold Holder.mask
    rw [hrun]
    rfl

/-- Over any session a masked state, recombined after every step, is the plain state that the
    counterparts of the commands lead to. The bytes that are read are the same and the refusals are
    the same, whatever is on the tape. -/
theorem trace_unmask (hn : 2 ≤ n ∧ n ≤ 4) (init : Option State) (tape : Tape)
    {steps : List (Step (Command n))} (heven : ∀ c, .command c ∈ steps → c.Even) :
    ∃ h, Holder.build n init tape = .ok h ∧ unmask h.state = init.getD .zero ∧
      (trace Holder.obey (.start h) steps).map
          (Prod.map (Answer.map Reply.output?) fun h => unmask h.state) =
        trace follow (.start (init.getD .zero)) steps := by
  obtain ⟨h, hbuild, hinit⟩ := build_unmask hn init tape
  refine ⟨h, hbuild, hinit, ?_⟩
  have htrace := trace_view (f := id) (obey_unmask hn) (.start h) heven
  have hid : steps.map (Step.map id) = steps := by
    rw [List.map_congr_left fun step _ => Step.map_id step, List.map_id']
  rw [htrace, hid, ← hinit]
  rfl

/-- A session of three shares: a sum in shares, a permutation, a window that does not fit, and a
    copy gone back to. -/
def sampleSession : List (Step (Command 3)) :=
  [.command (.addShares #v[[1, 2], [3, 4], [5, 6]] 7), .save, .command (.permute 12),
    .command (.overwriteShares #v[[1, 2], [3, 4], [5, 6]] 39), .restore, .command (.extract 6 4)]

theorem trace_unmask_sampleSession :
    (2 ≤ 3 ∧ 3 ≤ 4) ∧ (∀ c, .command c ∈ sampleSession → c.Even) ∧
      ∃ h, Holder.build 3 none (.cycle #[1, 2, 3]) = .ok h ∧ unmask h.state = State.zero ∧
        (trace Holder.obey (.start h) sampleSession).map
            (Prod.map (Answer.map Reply.output?) fun h => unmask h.state) =
          trace follow (.start State.zero) sampleSession := by
  have heven : ∀ c, .command c ∈ sampleSession → c.Even := by
    intro c hc
    simp only [sampleSession, List.mem_cons, List.not_mem_nil, Step.command.injEq, reduceCtorEq,
      or_false, false_or] at hc
    rcases hc with rfl | rfl | rfl | rfl <;> simp [Command.Even, EvenShares, leadLength]
  exact ⟨by decide, heven, trace_unmask (by decide) none _ heven⟩

end Ascon.MaskedState
