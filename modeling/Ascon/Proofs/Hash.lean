import Ascon.Hash
import Ascon.Proofs.Xof
import Mathlib.Data.List.DropRight

/-! # Hashes by their past

  What a hash answers is determined by the commands that it has obeyed so far.
  Only those matter that stand behind the last one that started it afresh: the
  data of their updates, put together, is the message, and a `finalize` among
  them is what makes the hash refuse everything but a restart.

  - `obeyPast` is a hash that keeps this past and nothing else. It takes every
    digest from the whole message, in one go.
  - `ofPast` is the hash, with sponge and flag, that has such a past. It obeys and
    refuses as `obeyPast` does, so whole sessions run alike.
-/

namespace Ascon.Hash

open Session

variable {v : HashVariant}

/-! ### The past of a hash -/

/-- The data that a command brings in. -/
def Command.data : Command → Bytes
  | .update data => data
  | _ => []

/-- Whether nothing of what was before a command matters behind it. -/
def Command.startsAfresh : Command → Bool
  | .finalizeReset => true
  | .reinit => true
  | _ => false

/-- Whether a command takes the digest for good. -/
def Command.isFinalize : Command → Bool
  | .finalize => true
  | _ => false

/-- The commands behind the last one that started the hash afresh. -/
def sinceStart (past : List Command) : List Command :=
  past.rtakeWhile fun cmd => !cmd.startsAfresh

/-- The data of all updates since then. -/
def message (past : List Command) : Bytes := (sinceStart past).flatMap Command.data

/-- Whether the digest has been taken since then. -/
def taken (past : List Command) : Bool := (sinceStart past).any Command.isFinalize

/-- What a hash that only knows its past does with a command. -/
def obeyPast (v : HashVariant) (past : List Command) :
    Command → Except Fault (Option Digest × List Command)
  | .reinit => return (none, past ++ [.reinit])
  | .update data => do
    if taken past then throw .updateAfterFinalize
    return (none, past ++ [.update data])
  | cmd => do
    if taken past then throw .finalizeTwice
    return (← digest v (message past), past ++ [cmd])

theorem sinceStart_of_startsAfresh (past : List Command) {cmd : Command}
    (h : cmd.startsAfresh = true) : sinceStart (past ++ [cmd]) = [] :=
  List.rtakeWhile_concat_neg _ _ _ (by simp [h])

theorem sinceStart_concat (past : List Command) {cmd : Command}
    (h : cmd.startsAfresh = false) : sinceStart (past ++ [cmd]) = sinceStart past ++ [cmd] :=
  List.rtakeWhile_concat_pos _ _ _ (by simp [h])

theorem message_concat (past : List Command) {cmd : Command} (h : cmd.startsAfresh = false) :
    message (past ++ [cmd]) = message past ++ cmd.data := by
  simp [message, sinceStart_concat past h]

theorem taken_concat (past : List Command) {cmd : Command} (h : cmd.startsAfresh = false) :
    taken (past ++ [cmd]) = (taken past || cmd.isFinalize) := by
  simp [taken, sinceStart_concat past h]

/-! ### Hashes with a message -/

/-- The XOF of a hash that has absorbed a message. -/
def absorbed (v : HashVariant) (message : Bytes) : Stage :=
  .absorbing (new : Hash v).xof.sponge.state message

/-- The hash that has absorbed a message. -/
def opened (v : HashVariant) (message : Bytes) : Hash v :=
  ⟨.ofStage (new : Hash v).xof.iv (absorbed v message), false⟩

/-- The hash whose digest of a message has been taken. -/
def closed (v : HashVariant) (message : Bytes) : Hash v :=
  ⟨.ofStage (new : Hash v).xof.iv
    ((Xof.construction v).squeeze digestBytes (absorbed v message)).2, true⟩

/-- The digest of a message, as the unbuffered sponge gives it out. -/
def output (v : HashVariant) (message : Bytes) : Digest :=
  ((Xof.construction v).squeeze digestBytes (absorbed v message)).1

theorem new_eq : (new : Hash v) = opened v [] := by
  have hxof : (new : Hash v).xof = .ofStage (new : Hash v).xof.iv (absorbed v []) :=
    Xof.build_eq (some digestBytes)
  rw [opened, ← hxof]
  rfl

theorem update_opened (v : HashVariant) (message data : Bytes) :
    (opened v message).update data = .ok (opened v (message ++ data)) := by
  show (Xof.absorb (.ofStage _ (absorbed v message)) data).bind _ = _
  rw [Xof.absorb_ofStage]
  rfl

theorem finalize_opened (v : HashVariant) (message : Bytes) :
    (opened v message).finalize = .ok (output v message, closed v message) := by
  show (Xof.squeeze (.ofStage _ (absorbed v message)) digestBytes).bind _ = _
  rw [Xof.squeeze_ofStage]
  rfl

theorem update_closed (v : HashVariant) (message data : Bytes) :
    (closed v message).update data = .error .updateAfterFinalize := rfl

theorem finalize_closed (v : HashVariant) (message : Bytes) :
    (closed v message).finalize = .error .finalizeTwice := rfl

theorem reinit_opened (v : HashVariant) (message : Bytes) : (opened v message).reinit = new := rfl

theorem reinit_closed (v : HashVariant) (message : Bytes) : (closed v message).reinit = new := rfl

/-- A message has a digest, and it is not refused. -/
theorem digest_eq (v : HashVariant) (message : Bytes) :
    digest v message = .ok (output v message) := by
  have hupdate : (new : Hash v).update message = .ok (opened v message) := by
    rw [new_eq, update_opened, List.nil_append]
  unfold digest
  rw [hupdate]
  show (finalize (opened v message)).bind _ = _
  rw [finalize_opened]
  rfl

/-! ### Hashes with a past -/

/-- The hash that has a past. -/
def ofPast (past : List Command) : Hash v :=
  if taken past then closed v (message past) else opened v (message past)

/-- A hash that has been started afresh is new, whatever was before. -/
theorem ofPast_of_startsAfresh (past : List Command) {cmd : Command}
    (h : cmd.startsAfresh = true) : (ofPast (past ++ [cmd]) : Hash v) = new := by
  have hsince := sinceStart_of_startsAfresh past h
  unfold ofPast message taken
  rw [hsince, new_eq]
  rfl

theorem reinit_ofPast (past : List Command) : (ofPast past : Hash v).reinit = new := by
  unfold ofPast
  split
  · exact reinit_closed v _
  · exact reinit_opened v _

/-- A command that neither starts afresh nor takes the digest for good adds its data. -/
theorem ofPast_concat {past : List Command} (htaken : taken past = false) {cmd : Command}
    (hstart : cmd.startsAfresh = false) (hfinal : cmd.isFinalize = false) :
    (ofPast (past ++ [cmd]) : Hash v) = opened v (message past ++ cmd.data) := by
  have hopen : taken (past ++ [cmd]) = false := by
    rw [taken_concat past hstart, htaken, hfinal]
    rfl
  rw [ofPast, hopen, message_concat past hstart]
  rfl

/-- Behind a digest that is taken for good, the message is the same. -/
theorem ofPast_finalize (past : List Command) :
    (ofPast (past ++ [.finalize]) : Hash v) = closed v (message past) := by
  have hclosed : taken (past ++ [.finalize]) = true := by
    rw [taken_concat past rfl]
    exact Bool.or_true _
  rw [ofPast, hclosed, message_concat past rfl]
  exact congrArg (closed v) (List.append_nil _)

/-! ### Commands -/

/-- A hash whose digest has been taken refuses all but a restart. -/
theorem obey_closed {past : List Command} (htaken : taken past = true) (cmd : Command) :
    (obeyPast v past cmd).map (Prod.map id ofPast) = (closed v (message past)).obey cmd := by
  cases cmd with
  | reinit =>
    show Except.ok _ = Except.ok _
    rw [Prod.map_apply, ofPast_of_startsAfresh past rfl, reinit_closed]
    rfl
  | update data => simp only [obeyPast, htaken, obey, update_closed]; rfl
  | finalize => simp only [obeyPast, htaken, obey, finalize_closed]; rfl
  | peek => simp only [obeyPast, htaken, obey, finalize_closed]; rfl
  | finalizeReset => simp only [obeyPast, htaken, obey, finalizeReset, finalize_closed]; rfl

/-- A hash whose digest has not been taken obeys every command. -/
theorem obey_opened {past : List Command} (htaken : taken past = false) (cmd : Command) :
    (obeyPast v past cmd).map (Prod.map id ofPast) = (opened v (message past)).obey cmd := by
  have hdigest := digest_eq v (message past)
  have hfinal := finalize_opened v (message past)
  cases cmd with
  | reinit =>
    show Except.ok _ = Except.ok _
    rw [Prod.map_apply, ofPast_of_startsAfresh past rfl, reinit_opened]
    rfl
  | update data =>
    simp only [obeyPast, htaken, obey, update_opened]
    show Except.ok _ = Except.ok _
    rw [Prod.map_apply, ofPast_concat htaken rfl rfl]
    rfl
  | finalize =>
    simp only [obeyPast, htaken, obey, hdigest, hfinal]
    show Except.ok _ = Except.ok _
    rw [Prod.map_apply, ofPast_finalize]
    rfl
  | peek =>
    simp only [obeyPast, htaken, obey, hdigest, hfinal]
    show Except.ok _ = Except.ok _
    rw [Prod.map_apply, ofPast_concat htaken rfl rfl]
    -- the digest was taken from a copy, which adds no data and leaves the hash open
    exact congrArg (fun m => Except.ok (_, opened v m)) (List.append_nil _)
  | finalizeReset =>
    simp only [obeyPast, htaken, obey, finalizeReset, hdigest, hfinal]
    show Except.ok _ = Except.ok _
    rw [Prod.map_apply, ofPast_of_startsAfresh past rfl]
    rfl

/-- A hash obeys and refuses as its past demands. -/
theorem obey_ofPast (past : List Command) (cmd : Command) :
    (obeyPast v past cmd).map (Prod.map id ofPast) = (ofPast past : Hash v).obey cmd := by
  cases htaken : taken past with
  | true =>
    rw [obey_closed htaken, ofPast, htaken]
    rfl
  | false =>
    rw [obey_opened htaken, ofPast, htaken]
    rfl

theorem obeyPast_of_open (v : HashVariant) {past : List Command} (h : taken past = false)
    (cmd : Command) : ∃ answer, obeyPast v past cmd = .ok answer := by
  have hdigest := digest_eq v (message past)
  cases cmd <;> simp only [obeyPast, h, hdigest] <;> exact ⟨_, rfl⟩

theorem obeyPast_of_taken (v : HashVariant) {past : List Command} (h : taken past = true)
    {cmd : Command} (hcmd : cmd ≠ .reinit) : ∃ fault, obeyPast v past cmd = .error fault := by
  cases cmd with
  | reinit => exact absurd rfl hcmd
  | _ => simp only [obeyPast, h]; exact ⟨_, rfl⟩

/-- A hash that only knows its past refuses all but a restart when the digest has been taken, and
    nothing otherwise. -/
theorem obeyPast_refuses_iff (v : HashVariant) (past : List Command) (cmd : Command) :
    (∃ fault, obeyPast v past cmd = .error fault) ↔ taken past = true ∧ cmd ≠ .reinit := by
  constructor
  · rintro ⟨fault, hfault⟩
    refine ⟨Bool.of_not_eq_false fun hopen => ?_, ?_⟩
    · obtain ⟨answer, hanswer⟩ := obeyPast_of_open v hopen cmd
      rw [hanswer] at hfault
      cases hfault
    · rintro rfl
      cases hfault
  · rintro ⟨htaken, hcmd⟩
    exact obeyPast_of_taken v htaken hcmd

/-! ### Sessions -/

/-- A hash answers every sequence of commands from its past. It refuses all but a restart when the
    digest has been taken since it was last started afresh. Otherwise every digest that it gives
    out is that of the whole message, however the message was cut into pieces. Behind a restart it
    is a new hash. -/
theorem trace_past (v : HashVariant) (steps : List (Step Command)) :
    trace obey (.start (new : Hash v)) steps =
        (trace (obeyPast v) (.start []) steps).map (Prod.map id ofPast) ∧
      (∀ past cmd, (∃ fault, obeyPast v past cmd = .error fault) ↔
        taken past = true ∧ cmd ≠ .reinit) ∧
      (∀ data, ∃ out, digest v data = .ok out) ∧
      ∀ past, (ofPast past : Hash v).reinit = new ∧
        (ofPast (past ++ [.reinit]) : Hash v) = new ∧
        (ofPast (past ++ [.finalizeReset]) : Hash v) = new := by
  refine ⟨?_, obeyPast_refuses_iff v, fun data => ⟨_, digest_eq v data⟩, fun past =>
    ⟨reinit_ofPast past, ofPast_of_startsAfresh past rfl, ofPast_of_startsAfresh past rfl⟩⟩
  have hstart : Session.start (new : Hash v) = (Session.start []).view ofPast :=
    congrArg Session.start new_eq
  have hview := trace_view (P := fun _ => True) (g := id) (f := id)
    (fun past cmd _ => obey_ofPast (v := v) past cmd) (.start [])
    fun cmd (_ : .command cmd ∈ steps) => trivial
  have hsteps : steps.map (Step.map id) = steps := by
    rw [funext Step.map_id, List.map_id']
  rw [hsteps, Answer.map_id, ← hstart] at hview
  exact hview.symm

end Ascon.Hash
