import Ascon.Proofs.Session
import Ascon.Proofs.Turns
import Ascon.Xof

/-! # Extendable output without a buffer

  The XOF as an unbuffered sponge. The full permutation closes its input, and a
  block of output that is used up is permuted at once. So by the time a byte is
  read, the state has been permuted once for every full block in front of it.

  - `nextByte_sponge` is the only place where the cursor, the permutation and
    the position of a byte meet. What an XOF does with a call, and with a whole
    session of calls, follows from it.
  - That pieces may be merged holds of every XOF, wherever it stands.
  - An XOF inside a block works through a buffer in turns, a block or what is left of
    one at a time (`absorb_iff_inTurns`, `squeeze_iff_inTurns`). So what is said here
    of its bytes is said of these two loops.
-/

namespace Ascon.Xof

open Session

variable {v : HashVariant}

/-- The XOF among the sponges. -/
def construction (v : HashVariant) : Construction where
  rateIn := xofRate
  rateOut := xofRate
  rounds := v.rounds
  close := State.permute12
  turnsAt j := j / xofRate
  turnsAfter count := count / xofRate

/-! ### One step -/

theorem rounds_bounds (v : HashVariant) : 1 ≤ v.rounds ∧ v.rounds ≤ maxRounds := by
  cases v <;> decide

theorem closeInput_absorbing (s : State) {cursor : Nat} (h : cursor < xofRate) :
    closeInput ⟨s, cursor, .absorbing⟩ =
      .ok ⟨(s.addFrom cursor [padByte]).permute12, 0, .squeezing⟩ := by
  have hfits : cursor + [padByte].length ≤ 40 := by
    rw [xofRate] at h
    rw [List.length_singleton]
    omega
  show (s.addBytes [padByte] cursor).bind _ = _
  rw [State.addBytes_of_le s hfits]
  rfl

/-- The byte at the cursor is given out, and the last one of a block is followed by the
    permutation. -/
theorem nextByte_squeezing (s : State) {cursor : Nat} (h : cursor < xofRate) :
    nextByte v ⟨s, cursor, .squeezing⟩ =
      .ok (s.byte cursor, if cursor + 1 = xofRate then ⟨s.lastRounds v.rounds, 0, .squeezing⟩
        else ⟨s, cursor + 1, .squeezing⟩) := by
  have hfits : cursor < 40 := by
    rw [xofRate] at h
    omega
  have hpermute := State.permute_of_le s (rounds_bounds v)
  show (s.extractByte cursor).bind _ = _
  rw [State.extractByte_of_lt s hfits]
  show (if cursor + 1 = xofRate then _ else _) = _
  split
  · rw [hpermute]
    rfl
  · rfl

theorem nextByte_sponge (s : State) (j : Nat) :
    nextByte v ((construction v).sponge (.squeezing s j)) =
      .ok ((construction v).outputByte s j,
        (construction v).sponge (.squeezing s (j + 1))) := by
  have hlt : j % xofRate < xofRate := Nat.mod_lt _ (by decide)
  have hpos : 0 < xofRate := by decide
  have hcursor := Construction.cursor_succ hpos j
  have hturns : (j + 1) / xofRate = if j % xofRate + 1 = xofRate then j / xofRate + 1
      else j / xofRate := by
    unfold xofRate
    split <;> omega
  have hsponge (n : Nat) : (construction v).sponge (.squeezing s n) =
      ⟨(construction v).turned (n / xofRate) s, n % xofRate, .squeezing⟩ := rfl
  rw [hsponge, hsponge, nextByte_squeezing _ hlt, hturns, hcursor]
  split <;> rfl

/-- Closing leads to squeezing, and giving out a byte does not lead out of it. -/
theorem squeezes (v : HashVariant) : Sponge.Squeezes closeInput (nextByte v) where
  phase_close := by
    intro s t h
    unfold closeInput at h
    split at h
    · next hphase =>
      cases h
      exact hphase
    · obtain ⟨_, -, h⟩ := exists_of_bind_eq_ok h
      cases h
      rfl
  close_squeezing := by
    intro s h
    unfold closeInput
    rw [h]
    rfl
  phase_next := by
    intro s t b h
    obtain ⟨_, -, h⟩ := exists_of_bind_eq_ok h
    split at h
    · obtain ⟨_, -, h⟩ := exists_of_bind_eq_ok h
      cases h
      rfl
    · cases h
      rfl

theorem describes (v : HashVariant) : (construction v).Describes closeInput (nextByte v) where
  toSqueezes := squeezes v
  rateIn_bounds := ⟨show 0 < xofRate by decide, show xofRate ≤ stateBytes by decide⟩
  rounds_bounds := rounds_bounds v
  turnsAfter_zero := rfl
  close_absorbing s _ h := closeInput_absorbing s h
  next_eq := nextByte_sponge

/-! ### Calls -/

/-- Squeezing is closing and giving out, in the sponge. -/
theorem squeeze_eq (x : Xof v) (len : Nat) :
    x.squeeze len = ((closeInput x.sponge).bind (Sponge.emit (nextByte v) len)).map
      (Prod.map id ({ x with sponge := · })) :=
  bind_bind_ok (closeInput x.sponge) _ _

/-- Two pieces of input are absorbed like one. -/
theorem absorb_append (x : Xof v) (a b : Bytes) :
    x.absorb (a ++ b) = (do (← x.absorb a).absorb b) := by
  show (x.sponge.absorb xofRate v.rounds (a ++ b)).bind _ = _
  rw [Sponge.absorb_append]
  show ((x.sponge.absorb xofRate v.rounds a).bind _).bind _ =
    ((x.sponge.absorb xofRate v.rounds a).bind _).bind _
  cases x.sponge.absorb xofRate v.rounds a <;> rfl

/-- Two pieces of output are squeezed like one. -/
theorem squeeze_add (x : Xof v) (m n : Nat) :
    x.squeeze (m + n) = (do
      let p ← x.squeeze m
      let q ← p.2.squeeze n
      return (p.1 ++ q.1, q.2)) := by
  rw [squeeze_eq, (squeezes v).squeeze_add, squeeze_eq]
  cases (closeInput x.sponge).bind (Sponge.emit (nextByte v) m) with
  | error fault => rfl
  | ok p =>
    show (((closeInput p.2).bind (Sponge.emit (nextByte v) n)).bind _).map _ =
      (squeeze { x with sponge := p.2 } n).bind _
    rw [squeeze_eq]
    show _ = (Except.map _ ((closeInput p.2).bind (Sponge.emit (nextByte v) n))).bind _
    cases (closeInput p.2).bind (Sponge.emit (nextByte v) n) <;> rfl

/-- The XOF that was started with an initial value and stands where the unbuffered one stands. -/
def ofStage (iv : UInt64) (stage : Stage) : Xof v := ⟨iv, (construction v).sponge stage⟩

theorem absorb_ofStage (iv : UInt64) (stage : Stage) (data : Bytes) :
    (ofStage iv stage : Xof v).absorb data =
      .ok (ofStage iv ((construction v).absorb stage data)) := by
  have habsorb := Construction.absorb_sponge (describes v) stage data
  show (Sponge.absorb (construction v).rateIn (construction v).rounds _ data).bind _ = _
  rw [ofStage, habsorb]
  rfl

theorem squeeze_ofStage (iv : UInt64) (stage : Stage) (len : Nat) :
    (ofStage iv stage : Xof v).squeeze len =
      .ok (((construction v).squeeze len stage).map id (ofStage iv)) := by
  have hsqueeze := Construction.squeeze_sponge (describes v) stage len
  rw [squeeze_eq, ofStage, hsqueeze]
  rfl

/-- A call, as a command for an XOF. -/
def commandOf : Call → Command
  | .absorb data => .absorb data
  | .squeeze len => .squeeze len

/-- What an XOF replies when it has given out some bytes, or none. -/
def replyOf : Option Bytes → Reply v
  | none => .done
  | some out => .output out

/-- An XOF does with a call what the unbuffered one does with it. -/
theorem obey_ofStage (iv : UInt64) (stage : Stage) (c : Call) :
    ((construction v).obey stage c).map (Prod.map replyOf (ofStage iv)) =
      (ofStage iv stage : Xof v).obey (commandOf c) := by
  cases c with
  | absorb data =>
    show _ = ((ofStage iv stage : Xof v).absorb data).bind _
    rw [absorb_ofStage]
    rfl
  | squeeze len =>
    show _ = ((ofStage iv stage : Xof v).squeeze len).bind _
    rw [squeeze_ofStage]
    rfl

/-! ### In turns -/

/-- Absorbing is done in the sponge. -/
theorem absorb_eq (x : Xof v) (data : Bytes) :
    x.absorb data = (x.sponge.absorb xofRate v.rounds data).map ({ x with sponge := · }) := by
  show (x.sponge.absorb xofRate v.rounds data).bind _ = _
  cases x.sponge.absorb xofRate v.rounds data <;> rfl

/-- An XOF inside a block absorbs by running its loop, which leads it to a place inside a block. -/
theorem absorb_of_lt {x : Xof v} (h : x.sponge.cursor < xofRate) (data : Bytes) :
    ∃ t, x.absorb data = .ok { x with sponge := t } ∧ t.cursor < xofRate ∧
      Sponge.TakesInTurns xofRate (Sponge.absorbPiece xofRate v.rounds) data x.sponge.resume t := by
  have hrate : xofRate ≤ stateBytes := by decide
  have hpos : 0 < xofRate := by decide
  obtain ⟨t, habsorb, -, hlt, hturns⟩ :=
    Sponge.absorb_inTurns hrate (rounds_bounds v) hpos (fun _ => h) data
  refine ⟨t, ?_, hlt, hturns⟩
  rw [absorb_eq, habsorb]
  rfl

/-- To absorb is to run this loop. -/
theorem absorb_iff_inTurns {x : Xof v} (h : x.sponge.cursor < xofRate) {data : Bytes}
    {t : Sponge} :
    x.absorb data = .ok { x with sponge := t } ↔
      Sponge.TakesInTurns xofRate (Sponge.absorbPiece xofRate v.rounds) data x.sponge.resume t := by
  have hrate : xofRate ≤ stateBytes := by decide
  have hpos : 0 < xofRate := by decide
  rw [absorb_eq, ← Sponge.absorb_iff_inTurns hrate (rounds_bounds v) hpos fun _ => h]
  exact map_eq_ok_iff fun s t hst => congrArg Xof.sponge hst

/-- One turn: fills a piece of a buffer, and permutes if this uses up the block. -/
def squeezePiece (v : HashVariant) (len : Nat) (s : Sponge) :
    Except Fault (Vector UInt8 len × Sponge) := do
  let out ← s.state.extractBytes s.cursor len
  let cursor := s.cursor + len
  if cursor = xofRate then
    return (out, { s with state := ← s.state.permute v.rounds, cursor := 0 })
  else
    return (out, { s with cursor })

/-- What a piece of the output is, and where it leads to. -/
def pieceAt (v : HashVariant) (s : State) (cursor len : Nat) : Vector UInt8 len × Sponge :=
  (s.slice cursor len, if cursor + len = xofRate then ⟨s.lastRounds v.rounds, 0, .squeezing⟩
    else ⟨s, cursor + len, .squeezing⟩)

theorem squeezePiece_of_le (s : State) {cursor len : Nat} (h : cursor + len ≤ xofRate) :
    squeezePiece v len ⟨s, cursor, .squeezing⟩ = .ok (pieceAt v s cursor len) := by
  have hfits : cursor + len ≤ 40 := Nat.le_trans h (by decide)
  have hpermute := State.permute_of_le s (rounds_bounds v)
  unfold squeezePiece pieceAt
  rw [State.extractBytes_of_le s hfits]
  show (if cursor + len = xofRate then _ else _) = _
  split
  · rw [hpermute]
    rfl
  · rfl

theorem emit_of_le (s : State) {cursor len : Nat} (hcursor : cursor < xofRate)
    (h : cursor + len ≤ xofRate) :
    Sponge.emit (nextByte v) len ⟨s, cursor, .squeezing⟩ = .ok (pieceAt v s cursor len) := by
  induction len with
  | zero =>
    have hopen : ¬cursor + 0 = xofRate := Nat.ne_of_lt hcursor
    rw [pieceAt, if_neg hopen]
    rfl
  | succ len ih =>
    -- the block does not end before the last byte
    have hopen : cursor + len < xofRate := by omega
    have hinside : pieceAt v s cursor len = (s.slice cursor len, ⟨s, cursor + len, .squeezing⟩) := by
      rw [pieceAt, if_neg (Nat.ne_of_lt hopen)]
    rw [Sponge.emit, ih (Nat.le_of_lt hopen), hinside]
    show (nextByte v ⟨s, cursor + len, .squeezing⟩).bind _ = _
    rw [nextByte_squeezing s hopen, pieceAt, State.slice_succ]
    rfl

theorem squeezePiece_isPieceOf (v : HashVariant) :
    Sponge.IsPieceOf xofRate (squeezePiece v) (nextByte v) := by
  intro s cursor len hcursor hlen hle
  have hpos : 0 < xofRate := by decide
  rw [squeezePiece_of_le s hle, emit_of_le s hcursor hle, pieceAt]
  split
  · exact ⟨_, _, 0, hpos, rfl, rfl⟩
  · exact ⟨_, _, _, by omega, rfl, rfl⟩

theorem closeInput_of_lt {s : Sponge} (h : s.cursor < xofRate) :
    ∃ state cursor, cursor < xofRate ∧ closeInput s = .ok ⟨state, cursor, .squeezing⟩ := by
  have hpos : 0 < xofRate := by decide
  obtain ⟨state, cursor, phase⟩ := s
  cases phase with
  | absorbing => exact ⟨_, 0, hpos, closeInput_absorbing state h⟩
  | squeezing => exact ⟨state, cursor, h, rfl⟩

/-- An XOF inside a block squeezes by running its loop, which leads it to a place inside a block. -/
theorem squeeze_of_lt {x : Xof v} (h : x.sponge.cursor < xofRate) (len : Nat) :
    ∃ s out t, closeInput x.sponge = .ok s ∧ x.squeeze len = .ok (out, { x with sponge := t }) ∧
      t.cursor < xofRate ∧ Sponge.GivesInTurns xofRate (squeezePiece v) len s out.toList t := by
  obtain ⟨s, out, t, hclose, hsqueeze, -, hlt, hturns⟩ :=
    (squeezePiece_isPieceOf v).squeeze_inTurns (closeInput_of_lt h) len
  refine ⟨s, out, t, hclose, ?_, hlt, hturns⟩
  rw [squeeze_eq, hsqueeze]
  rfl

/-- To squeeze is to close the input and to run this loop. -/
theorem squeeze_iff_inTurns {x : Xof v} (h : x.sponge.cursor < xofRate) {len : Nat}
    {out : Vector UInt8 len} {t : Sponge} :
    x.squeeze len = .ok (out, { x with sponge := t }) ↔
      ∃ s, closeInput x.sponge = .ok s ∧
        Sponge.GivesInTurns xofRate (squeezePiece v) len s out.toList t := by
  rw [← (squeezePiece_isPieceOf v).squeeze_iff_inTurns (closeInput_of_lt h), squeeze_eq]
  refine map_eq_ok_iff (a := (out, t)) fun p q hpq => Prod.ext ?_ ?_
  · exact (Prod.mk.inj hpq).1
  · exact congrArg Xof.sponge (Prod.mk.inj hpq).2

/-! ### Sessions -/

/-- An XOF as it is started, for output of any length or of a given one. -/
def build : Option Nat → Xof v
  | none => new
  | some len => withOutputLen len

theorem build_eq (len : Option Nat) :
    (build len : Xof v) =
      ofStage (build len : Xof v).iv (.absorbing (build len : Xof v).sponge.state []) := by
  rw [ofStage, Construction.sponge_absorbing_nil]
  cases len <;> rfl

/-- An XOF answers every sequence of calls with the bytes of the unbuffered one, and is left as the
    unbuffered one stands. How input and output are cut into pieces does not matter. -/
theorem trace_unbuffered (v : HashVariant) (len : Option Nat) (steps : List (Step Call)) :
    let x : Xof v := build len
    trace obey (.start x) (steps.map (.map commandOf)) =
        (trace (construction v).obey (.start (.absorbing x.sponge.state [])) steps).map
          (Prod.map (.map replyOf) (ofStage x.iv)) ∧
      (∀ (y : Xof v) (a b : Bytes), (do (← y.absorb a).absorb b) = y.absorb (a ++ b)) ∧
      ∀ (y : Xof v) (m n : Nat),
        (do
          let p ← y.squeeze m
          let q ← p.2.squeeze n
          return (p.1 ++ q.1, q.2)) = y.squeeze (m + n) := by
  intro x
  have hstart : Session.start x =
      (Session.start (.absorbing x.sponge.state [])).view (ofStage x.iv) :=
    congrArg Session.start (build_eq len)
  refine ⟨?_, fun y a b => (absorb_append y a b).symm, fun y m n => (squeeze_add y m n).symm⟩
  rw [hstart]
  exact (trace_view (P := fun _ => True) (fun stage c _ => obey_ofStage x.iv stage c) _
    fun _ _ => trivial).symm

end Ascon.Xof
