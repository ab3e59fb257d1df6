import Ascon.Prf
import Ascon.Proofs.Session
import Ascon.Proofs.Turns

/-! # The keyed functions without a buffer

  The PRF as an unbuffered sponge. Closing its input does not permute, and the
  first byte of a block of output comes behind a permutation. So by the time a
  byte is read, the state has been permuted once for its own block and once for
  every block in front of it. When input is taken in again, it has been permuted
  once for every block of output that was begun.

  - `nextByte_sponge` is the only place where the cursor, the permutation and
    the position of a byte meet, as it is for the XOF.
  - The functions for one message are a single call each way, so their values
    can be written down. A shorter output begins a longer one, as long as the
    length is not bound in.
  - A PRF inside a block works through a buffer in turns, like an XOF, but with blocks
    of two lengths.
-/

namespace Ascon.Prf

open Session

/-- The PRF among the sponges. -/
def construction : Construction where
  rateIn := rateIn
  rateOut := rateOut
  rounds := rounds
  close s := s ^^^ .holding (stateBytes - 1) [separatorByte]
  turnsAt j := j / rateOut + 1
  turnsAfter count := (count + (rateOut - 1)) / rateOut

/-! ### One step -/

theorem closeInput_absorbing (s : State) {cursor : Nat} (h : cursor < rateIn) :
    closeInput ⟨s, cursor, .absorbing⟩ =
      .ok ⟨s.addFrom cursor [padByte] ^^^ .holding (stateBytes - 1) [separatorByte], 0,
        .squeezing⟩ := by
  have hfits : cursor + [padByte].length ≤ 40 := by
    rw [rateIn] at h
    rw [List.length_singleton]
    omega
  have hlast : stateBytes - 1 + [separatorByte].length ≤ 40 := by decide
  show (s.addBytes [padByte] cursor).bind _ = _
  rw [State.addBytes_of_le s hfits, State.xor_holding _ hlast]
  rfl

/-- The byte at the cursor is given out, and the first one of a block comes behind the
    permutation. -/
theorem nextByte_squeezing (s : State) {cursor : Nat} (h : cursor < rateOut) :
    nextByte ⟨s, cursor, .squeezing⟩ =
      let t := if cursor = 0 then s.lastRounds rounds else s
      .ok (t.byte cursor, ⟨t, (cursor + 1) % rateOut, .squeezing⟩) := by
  have hfits : cursor < 40 := by
    rw [rateOut] at h
    omega
  have hrounds : 1 ≤ rounds ∧ rounds ≤ maxRounds := by decide
  have hpermute := State.permute_of_le s hrounds
  have hbyte (t : State) := State.extractByte_of_lt t hfits
  unfold nextByte
  dsimp only
  split
  · rw [hpermute]
    show (State.extractByte _ cursor).bind _ = _
    rw [hbyte]
    rfl
  · show (State.extractByte s cursor).bind _ = _
    rw [hbyte]
    rfl

theorem nextByte_sponge (s : State) (j : Nat) :
    nextByte (construction.sponge (.squeezing s j)) =
      .ok (construction.outputByte s j, construction.sponge (.squeezing s (j + 1))) := by
  have hlt : j % rateOut < rateOut := Nat.mod_lt _ (by decide)
  have hsponge (n : Nat) : construction.sponge (.squeezing s n) =
      ⟨construction.turned ((n + (rateOut - 1)) / rateOut) s, n % rateOut, .squeezing⟩ := rfl
  have hsucc : construction.turned (j / rateOut + 1) s =
      (construction.turned (j / rateOut) s).lastRounds rounds := Construction.turned_succ _ s
  -- what the permutation in front of the byte makes of the state
  have hturned : (if j % rateOut = 0 then
      (construction.turned ((j + (rateOut - 1)) / rateOut) s).lastRounds rounds
      else construction.turned ((j + (rateOut - 1)) / rateOut) s) =
        construction.turned (j / rateOut + 1) s := by
    split
    · next hfirst =>
      have hdiv : (j + (rateOut - 1)) / rateOut = j / rateOut := by
        unfold rateOut at hfirst ⊢
        omega
      rw [hdiv, hsucc]
    · next hinside =>
      have hdiv : (j + (rateOut - 1)) / rateOut = j / rateOut + 1 := by
        unfold rateOut at hinside ⊢
        omega
      rw [hdiv]
  have hnext : (j + 1 + (rateOut - 1)) / rateOut = j / rateOut + 1 := by
    unfold rateOut
    omega
  rw [hsponge, hsponge, nextByte_squeezing _ hlt, hturned, hnext, Nat.mod_add_mod]
  rfl

/-- Closing leads to squeezing, and giving out a byte does not lead out of it. -/
theorem squeezes : Sponge.Squeezes closeInput nextByte where
  phase_close := by
    intro s t h
    unfold closeInput at h
    split at h
    · next hphase =>
      cases h
      exact hphase
    · obtain ⟨_, -, h⟩ := exists_of_bind_eq_ok h
      obtain ⟨_, -, h⟩ := exists_of_bind_eq_ok h
      cases h
      rfl
  close_squeezing := by
    intro s h
    unfold closeInput
    rw [h]
    rfl
  phase_next := by
    intro s t b h
    unfold nextByte at h
    dsimp only at h
    split at h <;>
    · obtain ⟨_, -, h⟩ := exists_of_bind_eq_ok h
      obtain ⟨_, -, h⟩ := exists_of_bind_eq_ok h
      cases h
      rfl

theorem describes : construction.Describes closeInput nextByte where
  toSqueezes := squeezes
  rateIn_bounds := by decide
  rounds_bounds := by decide
  turnsAfter_zero := rfl
  close_absorbing s _ h := closeInput_absorbing s h
  next_eq := nextByte_sponge

/-! ### Calls -/

/-- The PRF that stands where the unbuffered one stands. -/
def ofStage (stage : Stage) : Prf := ⟨construction.sponge stage⟩

/-- A call, as a command for a PRF. -/
def commandOf : Call → Command
  | .absorb data => .absorb data
  | .squeeze len => .squeeze len

/-- Squeezing is closing and giving out, in the sponge. -/
theorem squeeze_eq (p : Prf) (len : Nat) :
    p.squeeze len = ((closeInput p.sponge).bind (Sponge.emit nextByte len)).map
      (Prod.map id Prf.mk) :=
  bind_bind_ok (closeInput p.sponge) _ _

theorem absorb_ofStage (stage : Stage) (data : Bytes) :
    (ofStage stage).absorb data = .ok (ofStage (construction.absorb stage data)) := by
  have habsorb := Construction.absorb_sponge describes stage data
  show (Sponge.absorb construction.rateIn construction.rounds _ data).bind _ = _
  rw [ofStage, habsorb]
  rfl

theorem squeeze_ofStage (stage : Stage) (len : Nat) :
    (ofStage stage).squeeze len = .ok ((construction.squeeze len stage).map id ofStage) := by
  have hsqueeze := Construction.squeeze_sponge describes stage len
  rw [squeeze_eq, ofStage, hsqueeze]
  rfl

/-- A PRF does with a call what the unbuffered one does with it. -/
theorem obey_ofStage (stage : Stage) (c : Call) :
    (construction.obey stage c).map (Prod.map id ofStage) =
      (ofStage stage).obey (commandOf c) := by
  cases c with
  | absorb data =>
    show _ = ((ofStage stage).absorb data).bind _
    rw [absorb_ofStage]
    rfl
  | squeeze len =>
    show _ = ((ofStage stage).squeeze len).bind _
    rw [squeeze_ofStage]
    rfl

/-! ### In turns -/

/-- The number of bytes of a block, which is not the same in both phases. -/
def rateOf : Phase → Nat
  | .absorbing => rateIn
  | .squeezing => rateOut

/-- Absorbing is done in the sponge. -/
theorem absorb_eq (p : Prf) (data : Bytes) :
    p.absorb data = (p.sponge.absorb rateIn rounds data).map Prf.mk := by
  show (p.sponge.absorb rateIn rounds data).bind _ = _
  cases p.sponge.absorb rateIn rounds data <;> rfl

section absorb

variable {p : Prf} (h : p.sponge.cursor < rateOf p.sponge.phase)
include h

theorem lt_rateIn_of_absorbing (hphase : p.sponge.phase = .absorbing) :
    p.sponge.cursor < rateIn := by
  rwa [hphase] at h

/-- A PRF inside a block absorbs by running its loop, which leads it to a place inside a block. -/
theorem absorb_of_lt (data : Bytes) :
    ∃ t, p.absorb data = .ok ⟨t⟩ ∧ t.cursor < rateOf t.phase ∧
      Sponge.TakesInTurns rateIn (Sponge.absorbPiece rateIn rounds) data p.sponge.resume t := by
  have hrate : rateIn ≤ stateBytes := by decide
  have hrounds : 1 ≤ rounds ∧ rounds ≤ maxRounds := by decide
  have hpos : 0 < rateIn := by decide
  obtain ⟨t, habsorb, hphase, hlt, hturns⟩ :=
    Sponge.absorb_inTurns hrate hrounds hpos (lt_rateIn_of_absorbing h) data
  refine ⟨t, ?_, hphase ▸ hlt, hturns⟩
  rw [absorb_eq, habsorb]
  rfl

/-- To absorb is to run this loop. -/
theorem absorb_iff_inTurns {data : Bytes} {t : Sponge} :
    p.absorb data = .ok ⟨t⟩ ↔
      Sponge.TakesInTurns rateIn (Sponge.absorbPiece rateIn rounds) data p.sponge.resume t := by
  have hrate : rateIn ≤ stateBytes := by decide
  have hrounds : 1 ≤ rounds ∧ rounds ≤ maxRounds := by decide
  have hpos : 0 < rateIn := by decide
  rw [absorb_eq,
    ← Sponge.absorb_iff_inTurns hrate hrounds hpos (lt_rateIn_of_absorbing h)]
  exact map_eq_ok_iff fun s t hst => congrArg Prf.sponge hst

end absorb

/-- One turn: permutes if a block begins, and fills a piece of a buffer. -/
def squeezePiece (len : Nat) (s : Sponge) : Except Fault (Vector UInt8 len × Sponge) := do
  let state ← if s.cursor = 0 then s.state.permute rounds else pure s.state
  let out ← state.extractBytes s.cursor len
  return (out, { s with state, cursor := (s.cursor + len) % rateOut })

/-- What a piece of the output is, and where it leads to. -/
def pieceAt (s : State) (cursor len : Nat) : Vector UInt8 len × Sponge :=
  let t := if cursor = 0 then s.lastRounds rounds else s
  (t.slice cursor len, ⟨t, (cursor + len) % rateOut, .squeezing⟩)

theorem squeezePiece_of_le (s : State) {cursor len : Nat} (h : cursor + len ≤ rateOut) :
    squeezePiece len ⟨s, cursor, .squeezing⟩ = .ok (pieceAt s cursor len) := by
  have hfits : cursor + len ≤ 40 := Nat.le_trans h (by decide)
  have hrounds : 1 ≤ rounds ∧ rounds ≤ maxRounds := by decide
  unfold squeezePiece pieceAt
  dsimp only
  split
  · rw [State.permute_of_le s hrounds]
    show (State.extractBytes _ cursor len).bind _ = _
    rw [State.extractBytes_of_le _ hfits]
    rfl
  · show (State.extractBytes s cursor len).bind _ = _
    rw [State.extractBytes_of_le s hfits]
    rfl

theorem emit_of_le (s : State) {cursor len : Nat} (h : cursor + (len + 1) ≤ rateOut) :
    Sponge.emit nextByte (len + 1) ⟨s, cursor, .squeezing⟩ = .ok (pieceAt s cursor (len + 1)) := by
  induction len with
  | zero =>
    have hcursor : cursor < rateOut := h
    show (nextByte ⟨s, cursor, .squeezing⟩).bind _ = _
    rw [nextByte_squeezing s hcursor, pieceAt, State.slice_succ]
    rfl
  | succ len ih =>
    -- behind the first byte, no block begins before the last one
    have hopen : cursor + (len + 1) < rateOut := h
    have hinside : ¬cursor + (len + 1) = 0 := by omega
    rw [Sponge.emit, ih (Nat.le_of_lt hopen)]
    show (nextByte ⟨_, (cursor + (len + 1)) % rateOut, .squeezing⟩).bind _ = _
    rw [Nat.mod_eq_of_lt hopen, nextByte_squeezing _ hopen, if_neg hinside, pieceAt,
      State.slice_succ _ _ (len + 1)]
    rfl

theorem squeezePiece_isPieceOf : Sponge.IsPieceOf rateOut squeezePiece nextByte := by
  intro s cursor len hcursor hlen hle
  obtain ⟨len, rfl⟩ : ∃ m, len = m + 1 := ⟨len - 1, by omega⟩
  have hpos : 0 < rateOut := by decide
  exact ⟨_, _, _, Nat.mod_lt _ hpos, squeezePiece_of_le s hle, emit_of_le s hle⟩

theorem closeInput_of_lt {s : Sponge} (h : s.cursor < rateOf s.phase) :
    ∃ state cursor, cursor < rateOut ∧ closeInput s = .ok ⟨state, cursor, .squeezing⟩ := by
  have hpos : 0 < rateOut := by decide
  obtain ⟨state, cursor, phase⟩ := s
  cases phase with
  | absorbing => exact ⟨_, 0, hpos, closeInput_absorbing state h⟩
  | squeezing => exact ⟨state, cursor, h, rfl⟩

/-- A PRF inside a block squeezes by running its loop, which leads it to a place inside a block. -/
theorem squeeze_of_lt {p : Prf} (h : p.sponge.cursor < rateOf p.sponge.phase) (len : Nat) :
    ∃ s out t, closeInput p.sponge = .ok s ∧ p.squeeze len = .ok (out, ⟨t⟩) ∧
      t.cursor < rateOf t.phase ∧ Sponge.GivesInTurns rateOut squeezePiece len s out.toList t := by
  obtain ⟨s, out, t, hclose, hsqueeze, hphase, hlt, hturns⟩ :=
    squeezePiece_isPieceOf.squeeze_inTurns (closeInput_of_lt h) len
  refine ⟨s, out, t, hclose, ?_, hphase ▸ hlt, hturns⟩
  rw [squeeze_eq, hsqueeze]
  rfl

/-- To squeeze is to close the input and to run this loop. -/
theorem squeeze_iff_inTurns {p : Prf} (h : p.sponge.cursor < rateOf p.sponge.phase) {len : Nat}
    {out : Vector UInt8 len} {t : Sponge} :
    p.squeeze len = .ok (out, ⟨t⟩) ↔
      ∃ s, closeInput p.sponge = .ok s ∧
        Sponge.GivesInTurns rateOut squeezePiece len s out.toList t := by
  rw [← squeezePiece_isPieceOf.squeeze_iff_inTurns (closeInput_of_lt h), squeeze_eq]
  refine map_eq_ok_iff (a := (out, t)) fun r q hrq => Prod.ext ?_ ?_
  · exact (Prod.mk.inj hrq).1
  · exact congrArg Prf.sponge (Prod.mk.inj hrq).2

/-! ### Sessions and single messages -/

/-- A PRF as it is started with a key, for output of any length or of a given one. -/
def build (key : PrfKey) : Option Nat → Prf
  | none => new key
  | some len => withOutputLen key len

/-- The state from which the unbuffered PRF starts. -/
def startState (key : PrfKey) (len : Nat) : State := (initialState key len).permute12

/-- The first `len` bytes of the unbuffered PRF for `data`. -/
def unbuffered (start : State) (data : Bytes) (len : Nat) : Vector UInt8 len :=
  construction.output (construction.closed start data) 0 len

theorem withOutputLen_eq (key : PrfKey) (len : Nat) :
    withOutputLen key len = ofStage (.absorbing (startState key len) []) := by
  rw [ofStage, Construction.sponge_absorbing_nil]
  rfl

theorem build_eq (key : PrfKey) (len : Option Nat) :
    build key len = ofStage (.absorbing (startState key (len.getD 0)) []) := by
  cases len <;> exact withOutputLen_eq key _

theorem eval_eq (key : PrfKey) (bound : Nat) (data : Bytes) (len : Nat) :
    (withOutputLen key bound).eval data len = .ok (unbuffered (startState key bound) data len) := by
  rw [withOutputLen_eq]
  show ((ofStage _).absorb data).bind _ = _
  rw [absorb_ofStage]
  show (squeeze (ofStage _) len).bind _ = _
  rw [squeeze_ofStage]
  rfl

/-- A shorter output begins a longer one. -/
theorem unbuffered_prefix (start : State) (data : Bytes) (m n : Nat) :
    (unbuffered start data m).toList <+: (unbuffered start data (m + n)).toList := by
  unfold unbuffered
  rw [Construction.output_add, Vector.toList_append]
  exact List.prefix_append ..

/-- A PRF answers every sequence of calls with the bytes of the unbuffered one, and is left as the
    unbuffered one stands. So the functions for one message have the bytes of the unbuffered PRF as
    their values, and a shorter output of `prf` begins a longer one. -/
theorem trace_and_eval_unbuffered (key : PrfKey) :
    (∀ (len : Option Nat) (steps : List (Step Call)),
      trace obey (.start (build key len)) (steps.map (.map commandOf)) =
        (trace construction.obey
          (.start (.absorbing (startState key (len.getD 0)) [])) steps).map
            (Prod.map id ofStage)) ∧
      (∀ data len, prf key data len = .ok (unbuffered (startState key 0) data len)) ∧
      (∀ data len, prfFixed key data len = .ok (unbuffered (startState key len) data len)) ∧
      (∀ data, mac key data =
        .ok (unbuffered (startState key macTagBytes) data macTagBytes)) ∧
      ∀ data m n, ∃ short long, prf key data m = .ok short ∧ prf key data (m + n) = .ok long ∧
        short.toList <+: long.toList := by
  refine ⟨?_, eval_eq key 0, fun data len => eval_eq key len data len,
    fun data => eval_eq key macTagBytes data macTagBytes, ?_⟩
  · intro len steps
    have hstart : Session.start (build key len) =
        (Session.start (.absorbing (startState key (len.getD 0)) [])).view ofStage :=
      congrArg Session.start (build_eq key len)
    rw [hstart, ← Answer.map_id]
    exact (trace_view (P := fun _ => True) (fun stage c _ => obey_ofStage stage c) _
      fun _ _ => trivial).symm
  · intro data m n
    exact ⟨_, _, eval_eq key 0 data m, eval_eq key 0 data (m + n), unbuffered_prefix _ data m n⟩

/-! ### Short messages -/

/-- The bytes that the short PRF starts from, up to the end of its input. -/
def shortBytes (key : PrfKey) (data : Bytes) : Bytes :=
  [0x80, (data.length * 8).toUInt8, 0x4c, 0x80, 0, 0, 0, 0] ++ key.toList ++ data

theorem prfShortInitial_of_le (key : PrfKey) {data : Bytes}
    (h : data.length ≤ prfShortMaxInput) :
    prfShortInitial key data = .ok (.holding 0 (shortBytes key data)) := by
  have hkey : key.toList.length = 16 := Vector.length_toList
  have hiv : 0 + [0x80, (data.length * 8).toUInt8, 0x4c, 0x80, 0, 0, 0, 0].length ≤ 40 := by
    simp
  have hmiddle : 8 + key.toList.length ≤ 40 := by omega
  have hlast : prfShortOffset + data.length ≤ 40 := by
    rw [prfShortMaxInput] at h
    rw [prfShortOffset, stateBytes]
    omega
  unfold prfShortInitial
  rw [State.overwriteBytes_of_le _ hiv]
  show (State.overwriteBytes _ key.toList 8 >>= _) = _
  rw [State.overwriteBytes_of_le _ hmiddle]
  show State.overwriteBytes _ data _ = _
  rw [State.overwriteBytes_of_le _ hlast, State.holding, shortBytes, State.setFrom_append,
    State.setFrom_append, List.length_append, hkey]
  rfl

/-- The short PRF is one permutation between its initial state and its output. -/
theorem prfShort_of_le (key : PrfKey) {data : Bytes} {len : Nat}
    (hdata : data.length ≤ prfShortMaxInput) (hlen : len ≤ prfShortMaxOutput) :
    prfShort key data len = .ok (((State.holding 0 (shortBytes key data)).permute12 ^^^
      .holding prfShortOffset key.toList).slice prfShortOffset len) := by
  have hadd : prfShortOffset + key.toList.length ≤ 40 := by
    rw [Vector.length_toList]
    decide
  have hout : prfShortOffset + len ≤ 40 := by
    rw [prfShortMaxOutput] at hlen
    rw [prfShortOffset, stateBytes]
    omega
  unfold prfShort
  rw [if_neg (Nat.not_lt.2 hdata), if_neg (Nat.not_lt.2 hlen), prfShortInitial_of_le key hdata,
    State.xor_holding _ hadd]
  show Except.mapError _ (State.addBytes _ _ _ >>= _) = _
  rw [State.addBytes_of_le _ hadd]
  show Except.mapError _ (State.extractBytes _ _ _) = _
  rw [State.extractBytes_of_le _ hout]
  rfl

end Ascon.Prf
