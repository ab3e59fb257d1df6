import Ascon.Proofs.Xof.Alignment
import Mathlib.Algebra.GroupWithZero.Nat

/-! # Readers

  A reader gives out what the XOF would have given out, from the place on where the
  XOF stood when the reader was asked for. It does not matter in what pieces it is
  read, nor that it is copied in between and the copies are read as well.

  - `obeyReaders` is any number of readers that have come from one another by
    copying, each of which reads for itself.
  - What a reader gives out is told by the lengths of the pieces that have been read
    so far, from it or from the readers that it is a copy of: it is cut out of one
    single piece of output (`pieceBehind`). A whole run of readings and copies
    follows by the view of these lengths as readers.
  - The XOF itself keeps its initial value whatever it is asked for, so that it can
    always be started afresh.
-/

namespace Ascon

namespace Construction

variable (con : Construction)

/-- Where an unbuffered sponge stands behind pieces of the given lengths. -/
def squeezed (lens : List Nat) (stage : Stage) : Stage :=
  lens.foldl (fun stage len => (con.squeeze len stage).2) stage

/-- Two pieces are squeezed like one. -/
theorem squeeze_add (m n : Nat) (stage : Stage) :
    con.squeeze (m + n) stage =
      ((con.squeeze m stage).1 ++ (con.squeeze n (con.squeeze m stage).2).1,
        (con.squeeze n (con.squeeze m stage).2).2) := by
  cases stage with
  | absorbing start input =>
    have hout := @output_add con (con.closed start input) 0 m n
    rw [Nat.zero_add] at hout
    exact congrArg (·, Stage.squeezing _ _) hout
  | squeezing closed count =>
    have hplace := congrArg (Stage.squeezing closed) (Nat.add_assoc count m n).symm
    exact Prod.ext (output_add closed count m n) hplace

/-- A piece behind others is the end of a single piece that goes as far. -/
theorem drop_squeeze (lens : List Nat) (n : Nat) (stage : Stage) :
    (con.squeeze (lens.sum + n) stage).1.toList.drop lens.sum =
      (con.squeeze n (con.squeezed lens stage)).1.toList := by
  induction lens generalizing stage with
  | nil => exact congrArg (fun k => (con.squeeze k stage).1.toList) (Nat.zero_add n)
  | cons m lens ih =>
    have hassoc : (m :: lens).sum + n = m + (lens.sum + n) := Nat.add_assoc m lens.sum n
    have happend : (con.squeeze (m + (lens.sum + n)) stage).1.toList =
        (con.squeeze m stage).1.toList ++
          (con.squeeze (lens.sum + n) (con.squeeze m stage).2).1.toList := by
      rw [squeeze_add]
      exact Vector.toList_append
    have hsum : (m :: lens).sum = (con.squeeze m stage).1.toList.length + lens.sum := by
      rw [Vector.length_toList]
      exact List.sum_cons
    -- the first piece is in front of all that is read afterwards
    rw [hassoc, happend, hsum, List.drop_length_add_append]
    exact ih _

end Construction

namespace Xof

open Session

variable {v : HashVariant}

/-! ### Readers and their copies -/

/-- What can be done with readers that have come from one another by copying. -/
inductive ReaderCommand where
  | read (index len : Nat)
  /-- Put a copy of a reader behind the others. -/
  | copy (index : Nat)

/-- What readers give out and become under a command, if a single one reads as `read` says. From a
    reader that there is not nothing is read. -/
def obeyReaders {ρ : Type} (read : ρ → Nat → Except Fault (Bytes × ρ)) (readers : List ρ) :
    ReaderCommand → Except Fault (Bytes × List ρ)
  | .read index len =>
    match readers[index]? with
    | none => return ([], readers)
    | some r => do
      let (out, next) ← read r len
      return (out, readers.set index next)
  | .copy index => return ([], readers ++ readers[index]?.toList)

/-- Readers obey as what can be seen of them does, if each of them reads so. -/
theorem obeyReaders_view {ρ σ : Type} {read : ρ → Nat → Except Fault (Bytes × ρ)}
    {read' : σ → Nat → Except Fault (Bytes × σ)} {view : ρ → σ}
    (h : ∀ r len, (read r len).map (Prod.map id view) = read' (view r) len)
    (readers : List ρ) (cmd : ReaderCommand) :
    (obeyReaders read readers cmd).map (Prod.map id (List.map view)) =
      obeyReaders read' (readers.map view) cmd := by
  cases cmd with
  | copy index =>
    show Except.ok ([], (readers ++ readers[index]?.toList).map view) = _
    rw [List.map_append, obeyReaders, List.getElem?_map]
    cases readers[index]? <;> rfl
  | read index len =>
    rw [obeyReaders, obeyReaders, List.getElem?_map]
    cases readers[index]? with
    | none => rfl
    | some r =>
      show Except.map _ ((read r len).bind _) = (read' (view r) len).bind _
      rw [← h r len]
      cases read r len with
      | error fault => rfl
      | ok p => exact congrArg (fun rs => Except.ok (p.1, rs)) List.map_set

/-- Readers are refused nothing if a single one is not. -/
theorem obeyReaders_total {ρ : Type} {read : ρ → Nat → Except Fault (Bytes × ρ)}
    (h : ∀ r len, ∃ p, read r len = .ok p) (readers : List ρ) (cmd : ReaderCommand) :
    ∃ out next, obeyReaders read readers cmd = .ok (out, next) := by
  cases cmd with
  | copy index => exact ⟨_, _, rfl⟩
  | read index len =>
    rw [obeyReaders]
    cases readers[index]? with
    | none => exact ⟨_, _, rfl⟩
    | some r =>
      obtain ⟨p, hp⟩ := h r len
      refine ⟨p.1, readers.set index p.2, ?_⟩
      show (read r len).bind _ = _
      rw [hp]
      rfl

/-- A reader, as far as the bytes are concerned that it gives out. -/
def Reader.readBytes (r : Reader v) (len : Nat) : Except Fault (Bytes × Reader v) := do
  let (out, next) ← r.read len
  return (out.toList, next)

/-- The piece of `len` bytes that comes behind pieces of the lengths `past`: the end of a single
    piece that is squeezed from the XOF. -/
def pieceBehind (x : Xof v) (past : List Nat) (len : Nat) : Except Fault (Bytes × List Nat) := do
  let (out, _) ← x.squeeze (past.sum + len)
  return (out.toList.drop past.sum, past ++ [len])

/-- The reader from which pieces of the given lengths have been read. -/
def readerBehind (iv : UInt64) (stage : Stage) (past : List Nat) : Reader v :=
  ⟨ofStage iv ((construction v).squeezed past stage)⟩

section stage

variable {x : Xof v} {iv : UInt64} {stage : Stage}

/-- Pieces are read as they are cut out of a single one. -/
theorem readBytes_readerBehind (past : List Nat) (len : Nat) :
    ((ofStage iv stage : Xof v).pieceBehind past len).map
        (Prod.map id (readerBehind (v := v) iv stage)) =
      (readerBehind iv stage past : Reader v).readBytes len := by
  have hdrop := (construction v).drop_squeeze past len stage
  have hnext : (construction v).squeezed (past ++ [len]) stage =
      ((construction v).squeeze len ((construction v).squeezed past stage)).2 := by
    rw [Construction.squeezed, List.foldl_append]
    rfl
  unfold pieceBehind Reader.readBytes Reader.read readerBehind
  rw [squeeze_ofStage, squeeze_ofStage]
  show Except.ok (_, (⟨ofStage iv _⟩ : Reader v)) = Except.ok (_, (⟨ofStage iv _⟩ : Reader v))
  rw [hnext]
  exact congrArg (fun out => Except.ok (out, _)) hdrop

/-- Whatever is read from readers and their copies is cut out of single pieces. -/
theorem trace_readers (hx : x = ofStage iv stage) (steps : List (Step ReaderCommand)) :
    (trace (obeyReaders Reader.readBytes) (.start [x.finalize]) steps).map Prod.fst =
      (trace (obeyReaders x.pieceBehind) (.start [[]]) steps).map Prod.fst := by
  subst hx
  have hread := @readBytes_readerBehind v iv stage
  have hview := trace_view (P := fun _ => True) (g := id) (f := id)
    (fun past cmd _ => obeyReaders_view hread past cmd) (.start [[]])
    fun cmd (_ : .command cmd ∈ steps) => trivial
  have hsteps : steps.map (Step.map id) = steps := by
    rw [funext Step.map_id, List.map_id']
  rw [hsteps, Answer.map_id] at hview
  have hanswers := congrArg (List.map Prod.fst) hview
  rw [List.map_map] at hanswers
  exact hanswers.symm

/-- No reading of a reader or of a copy is refused. -/
theorem trace_readers_ne_refused (hx : x = ofStage iv stage) (steps : List (Step ReaderCommand)) :
    ∀ answer ∈ (trace (obeyReaders Reader.readBytes) (.start [x.finalize]) steps).map Prod.fst,
      ∀ fault, answer ≠ .refused fault := by
  have hpiece : ∀ past len, ∃ p, x.pieceBehind past len = .ok p := by
    intro past len
    subst hx
    exact ⟨_, by rw [pieceBehind, squeeze_ofStage]; rfl⟩
  have hobeys : ∀ (past : List (List Nat)) (cmd : ReaderCommand), True →
      ∃ out next, obeyReaders x.pieceBehind past cmd = .ok (out, next) ∧ True := by
    intro past cmd _
    obtain ⟨out, next, hobey⟩ := obeyReaders_total hpiece past cmd
    exact ⟨out, next, hobey, trivial⟩
  rw [trace_readers hx]
  intro answer hanswer
  obtain ⟨item, hitem, rfl⟩ := List.mem_map.1 hanswer
  exact (trace_inv hobeys trivial trivial steps item hitem).1

/-- Pieces that are read one after the other make up the single piece of their total length. -/
theorem readAll_eq (hx : x = ofStage iv stage) (lens : List Nat) :
    ∃ outs r out y, (⟨x⟩ : Reader v).readAll lens = .ok (outs, r) ∧
      x.squeeze lens.sum = .ok (out, y) ∧ outs.map List.length = lens ∧
      outs.flatten = out.toList := by
  induction lens generalizing x stage with
  | nil =>
    subst hx
    refine ⟨[], _, _, _, rfl, squeeze_ofStage iv stage 0, rfl, ?_⟩
    exact (List.eq_nil_of_length_eq_zero Vector.length_toList).symm
  | cons len lens ih =>
    subst hx
    have hsqueeze := squeeze_ofStage (v := v) iv stage len
    generalize (construction v).squeeze len stage = first at hsqueeze
    have hread : (⟨ofStage iv stage⟩ : Reader v).read len =
        .ok (first.1, ⟨ofStage iv first.2⟩) := by
      rw [Reader.read, hsqueeze]
      rfl
    obtain ⟨outs, r, out, y, hreads, hrest, hlens, hflat⟩ := ih (x := ofStage iv first.2) rfl
    let whole : Vector UInt8 (len + lens.sum) := first.1 ++ out
    have hwhole : (ofStage iv stage : Xof v).squeeze (len + lens.sum) = .ok (whole, y) := by
      rw [squeeze_add, hsqueeze]
      show ((ofStage iv first.2 : Xof v).squeeze lens.sum).bind _ = _
      rw [hrest]
      rfl
    refine ⟨first.1.toList :: outs, r, whole, y, ?_, hwhole, ?_, ?_⟩
    · rw [Reader.readAll, hread]
      show (Reader.readAll _ lens).bind _ = _
      rw [hreads]
      rfl
    · rw [List.map_cons, hlens, Vector.length_toList]
    · rw [List.flatten_cons, hflat]
      exact Vector.toList_append.symm

end stage

/-! ### Starting afresh -/

/-- Whatever an XOF has been led to, starting it afresh makes it what it was at first. -/
theorem reinit_ofStage (len : Option Nat) (stage : Stage) :
    (ofStage (build len : Xof v).iv stage : Xof v).reinit = build len := by
  cases len <;> rfl

/-- At any point of any session, to start an XOF afresh is to go back to the XOF as it was started,
    for output of the same length, even if it has been erased. The reader that it leaves behind
    gives out what a single piece of output would hold, in pieces of any lengths. Its copies do the
    same, whenever they are made, and neither readers nor copies disturb each other. -/
theorem readers_continue (v : HashVariant) (len : Option Nat) (steps : List (Step Command)) :
    ∀ item ∈ trace obey (.start (build len : Xof v)) steps,
      (item.2.obey .reinit = .ok (.done, build len) ∧
        item.2.obey .finalizeReset = .ok (.reader item.2.finalize, build len) ∧
        item.2.obey .finalize = .ok (.reader item.2.finalize, item.2)) ∧
      (∀ lens, ∃ outs r out y, item.2.finalize.readAll lens = .ok (outs, r) ∧
        item.2.squeeze lens.sum = .ok (out, y) ∧ outs.map List.length = lens ∧
        outs.flatten = out.toList) ∧
      ∀ readings,
        (trace (obeyReaders Reader.readBytes) (.start [item.2.finalize]) readings).map Prod.fst =
            (trace (obeyReaders item.2.pieceBehind) (.start [[]]) readings).map Prod.fst ∧
          ∀ answer ∈
              (trace (obeyReaders Reader.readBytes) (.start [item.2.finalize]) readings).map Prod.fst,
            ∀ fault, answer ≠ .refused fault := by
  intro item hitem
  obtain ⟨stage, hstage⟩ := trace_stage v len steps item hitem
  have hreinit : item.2.reinit = build len := by
    rw [hstage]
    exact reinit_ofStage len stage
  refine ⟨⟨?_, ?_, rfl⟩, readAll_eq hstage, fun readings =>
    ⟨trace_readers hstage readings, trace_readers_ne_refused hstage readings⟩⟩
  · rw [obey, hreinit]
    rfl
  · rw [obey, finalizeReset, hreinit]
    rfl

/-- A reader of an XOF that has given out three bytes of a block. -/
theorem readers_continue_inside_block :
    ∃ (out : Vector UInt8 3) (x : Xof .asconA),
      (withOutputLen 32 : Xof .asconA).squeeze 3 = .ok (out, x) ∧ x.sponge.cursor = 3 ∧
        x.obey .reinit = .ok (.done, withOutputLen 32) ∧
          ∃ outs r rest y, x.finalize.readAll [0, 4, 9] = .ok (outs, r) ∧
            x.squeeze 13 = .ok (rest, y) ∧ outs.flatten = rest.toList := by
  let start : Xof .asconA := withOutputLen 32
  obtain ⟨out, x, hsqueeze, hcursor⟩ :
      ∃ out x, start.squeeze 3 = .ok (out, x) ∧ x.sponge.cursor = 3 := by
    have hstage : start = ofStage start.iv (.absorbing start.sponge.state []) :=
      build_eq (some 32)
    have h := squeeze_ofStage (v := .asconA) start.iv (.absorbing start.sponge.state []) 3
    rw [← hstage] at h
    exact ⟨_, _, h, rfl⟩
  have hobey : start.obey (.squeeze 3) = .ok (.output out.toList, x) := by
    rw [obey, hsqueeze]
    rfl
  have hitem : (.reply (.output out.toList), x) ∈
      trace obey (.start start) [.command (.squeeze 3)] := by
    rw [Session.start, trace_command hobey]
    exact List.mem_cons_self
  obtain ⟨⟨hreinit, -, -⟩, hread, -⟩ := readers_continue .asconA (some 32) _ _ hitem
  obtain ⟨outs, r, rest, y, hreads, hrest, -, hflat⟩ := hread [0, 4, 9]
  exact ⟨out, x, hsqueeze, hcursor, hreinit, outs, r, rest, y, hreads, hrest, hflat⟩

end Xof

end Ascon
