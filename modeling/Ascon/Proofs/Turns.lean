import Ascon.Proofs.Sponge

/-! # Sponges in turns

  A sponge is defined byte by byte. One that works through a buffer does so in
  turns instead: a turn goes on to the end of the current block, or to the end of
  the buffer if that comes first.

  - `TakesInTurns` and `GivesInTurns` are these two loops, as relations between the
    sponge in front of them and the sponge behind them. They hold only of loops
    that come to an end, and in which the cursor never stands behind the end of a
    block, so that it can be subtracted from the rate.
  - A turn does to a sponge what its bytes do one by one. This is an induction on
    the bytes, in which the end of the block can only be reached by the last one.
  - A turn moves on, since the cursor stands in front of the end of a block. So the
    loops end, by induction on the length of what is left of the buffer.
  - A loop cannot end in two ways. So to absorb or to squeeze is to run the loop and
    nothing else (`absorb_iff_inTurns`, `IsPieceOf.squeeze_iff_inTurns`).
-/

namespace Ascon

namespace Sponge

/-! ### Taking in -/

/-- The loop that takes in a buffer. Each turn takes what there is room for in the block. -/
inductive TakesInTurns (rate : Nat) (turn : Bytes → Sponge → Except Fault Sponge) :
    Bytes → Sponge → Sponge → Prop
  | done (s : Sponge) : TakesInTurns rate turn [] s s
  | turn {data : Bytes} {s next last : Sponge} (hdata : data ≠ []) (hcursor : s.cursor ≤ rate)
      (hturn : turn (data.take (rate - s.cursor)) s = .ok next)
      (hrest : TakesInTurns rate turn (data.drop (rate - s.cursor)) next last) :
      TakesInTurns rate turn data s last

/-- There is only one way for the loop to end. -/
theorem TakesInTurns.unique {rate : Nat} {turn : Bytes → Sponge → Except Fault Sponge}
    {data : Bytes} {s t u : Sponge} (ht : TakesInTurns rate turn data s t)
    (hu : TakesInTurns rate turn data s u) : t = u := by
  induction ht with
  | done s =>
    cases hu with
    | done => rfl
    | turn hdata => exact absurd rfl hdata
  | turn hdata _ hturn _ ih =>
    cases hu with
    | done => exact absurd rfl hdata
    | turn _ _ hturn' hrest' =>
      -- both begin with the same turn, and so stand at the same place behind it
      rw [hturn] at hturn'
      cases hturn'
      exact ih hrest'

/-- One turn: takes in a piece of a buffer, and permutes if this fills the block. -/
def absorbPiece (rate rounds : Nat) (piece : Bytes) (s : Sponge) : Except Fault Sponge := do
  let state ← s.state.addBytes piece s.cursor
  let cursor := s.cursor + piece.length
  if cursor = rate then
    return { s with state := ← state.permute rounds, cursor := 0 }
  else
    return { s with state, cursor }

section absorb

variable {rate rounds : Nat} (hrate : rate ≤ stateBytes) (hrounds : 1 ≤ rounds ∧ rounds ≤ maxRounds)
include hrate hrounds

theorem absorbPiece_of_le (s : State) {cursor : Nat} {piece : Bytes}
    (h : cursor + piece.length ≤ rate) :
    absorbPiece rate rounds piece ⟨s, cursor, .absorbing⟩ =
      .ok (if cursor + piece.length = rate then
        ⟨(s.addFrom cursor piece).lastRounds rounds, 0, .absorbing⟩
      else ⟨s.addFrom cursor piece, cursor + piece.length, .absorbing⟩) := by
  have hfits : cursor + piece.length ≤ 40 := Nat.le_trans h hrate
  have hpermute := State.permute_of_le (s.addFrom cursor piece) hrounds
  unfold absorbPiece
  rw [State.addBytes_of_le s hfits]
  show (if cursor + piece.length = rate then _ else _) = _
  split
  · rw [hpermute]
    rfl
  · rfl

/-- A piece that stays inside the block is taken in like its bytes one by one. -/
theorem foldlM_absorbByte (s : State) {cursor : Nat} {piece : Bytes} (hcursor : cursor < rate)
    (h : cursor + piece.length ≤ rate) :
    piece.foldlM (absorbByte rate rounds) ⟨s, cursor, .absorbing⟩ =
      absorbPiece rate rounds piece ⟨s, cursor, .absorbing⟩ := by
  induction piece generalizing s cursor with
  | nil =>
    have hopen : ¬cursor + ([] : Bytes).length = rate := Nat.ne_of_lt hcursor
    rw [absorbPiece_of_le hrate hrounds s h, if_neg hopen]
    rfl
  | cons b piece ih =>
    have hlen : cursor + 1 + piece.length = cursor + (b :: piece).length := by
      rw [List.length_cons]
      omega
    have hbyte : cursor + [b].length ≤ 40 := by
      rw [stateBytes] at hrate
      rw [List.length_singleton]
      omega
    rw [List.foldlM_cons, Construction.absorbByte_of_add hrounds (State.addBytes_of_le s hbyte)]
    show List.foldlM _ _ _ = _
    by_cases hfull : cursor + 1 = rate
    · -- the block ends with the first byte, and so does the piece
      have hnil : piece = [] := by
        apply List.eq_nil_of_length_eq_zero
        omega
      subst hnil
      have hlast : cursor + [b].length = rate := hfull
      rw [if_pos hfull, absorbPiece_of_le hrate hrounds s h, if_pos hlast]
      rfl
    · have hnext : cursor + 1 < rate := by omega
      have hrest : cursor + 1 + piece.length ≤ rate := by omega
      rw [if_neg hfull, ih _ hnext hrest, absorbPiece_of_le hrate hrounds _ hrest,
        absorbPiece_of_le hrate hrounds s h, hlen]
      rfl

/-- In front of the end of a block, the loop that takes in a buffer ends, and what it leads to is
    what the bytes of the buffer lead to one by one. -/
theorem takesInTurns (data : Bytes) (s : State) {cursor : Nat} (hcursor : cursor < rate) :
    ∃ t, data.foldlM (absorbByte rate rounds) ⟨s, cursor, .absorbing⟩ = .ok t ∧
      t.phase = .absorbing ∧ t.cursor < rate ∧
      TakesInTurns rate (absorbPiece rate rounds) data ⟨s, cursor, .absorbing⟩ t := by
  induction hlen : data.length using Nat.strongRecOn generalizing data s cursor with
  | ind len ih =>
    by_cases hdata : data = []
    · subst hdata
      exact ⟨_, rfl, rfl, hcursor, .done _⟩
    · have hpiece : cursor + (data.take (rate - cursor)).length ≤ rate := by
        rw [List.length_take]
        omega
      have hshorter : (data.drop (rate - cursor)).length < len := by
        have hpos := List.length_pos_iff.2 hdata
        rw [List.length_drop]
        omega
      obtain ⟨next, cursor', hcursor', hturn⟩ : ∃ next cursor', cursor' < rate ∧
          absorbPiece rate rounds (data.take (rate - cursor)) ⟨s, cursor, .absorbing⟩ =
            .ok ⟨next, cursor', .absorbing⟩ := by
        rw [absorbPiece_of_le hrate hrounds s hpiece]
        split
        · exact ⟨_, 0, by omega, rfl⟩
        · exact ⟨_, _, by omega, rfl⟩
      obtain ⟨t, ht, hphase, hlt, hrest⟩ := ih _ hshorter _ next hcursor' rfl
      refine ⟨t, ?_, hphase, hlt, .turn hdata (Nat.le_of_lt hcursor) hturn hrest⟩
      have hsplit : data = data.take (rate - cursor) ++ data.drop (rate - cursor) :=
        (List.take_append_drop _ _).symm
      rw [hsplit, List.foldlM_append, foldlM_absorbByte hrate hrounds s hcursor hpiece, hturn]
      exact ht

/-- A sponge absorbs in such a loop, from wherever it stands in a block of input or in an output. -/
theorem absorb_inTurns {s : Sponge} (hpos : 0 < rate) (h : s.phase = .absorbing → s.cursor < rate)
    (data : Bytes) :
    ∃ t, s.absorb rate rounds data = .ok t ∧ t.phase = .absorbing ∧ t.cursor < rate ∧
      TakesInTurns rate (absorbPiece rate rounds) data s.resume t := by
  obtain ⟨state, cursor, hcursor, hresume⟩ :
      ∃ state cursor, cursor < rate ∧ s.resume = ⟨state, cursor, .absorbing⟩ := by
    obtain ⟨state, cursor, phase⟩ := s
    cases phase with
    | absorbing => exact ⟨state, cursor, h rfl, rfl⟩
    | squeezing => exact ⟨state.permute12, 0, hpos, rfl⟩
  unfold absorb
  rw [hresume]
  exact takesInTurns hrate hrounds data state hcursor

/-- To absorb is to run this loop. -/
theorem absorb_iff_inTurns {s : Sponge} (hpos : 0 < rate)
    (h : s.phase = .absorbing → s.cursor < rate) {data : Bytes} {t : Sponge} :
    s.absorb rate rounds data = .ok t ↔
      TakesInTurns rate (absorbPiece rate rounds) data s.resume t := by
  obtain ⟨u, habsorb, -, -, hturns⟩ := absorb_inTurns hrate hrounds hpos h data
  rw [habsorb]
  constructor
  · rintro ⟨⟩
    exact hturns
  · intro hturns'
    rw [hturns.unique hturns']

end absorb

/-! ### Giving out -/

/-- The loop that fills a buffer. Each turn gives what is left of the block, unless there is less
    room for it. -/
inductive GivesInTurns (rate : Nat)
    (turn : (len : Nat) → Sponge → Except Fault (Vector UInt8 len × Sponge)) :
    Nat → Sponge → Bytes → Sponge → Prop
  | done (s : Sponge) : GivesInTurns rate turn 0 s [] s
  | turn {m k : Nat} {s next last : Sponge} {out : Vector UInt8 m} {rest : Bytes}
      (hlen : m + k ≠ 0) (hcursor : s.cursor ≤ rate) (hm : m = min (rate - s.cursor) (m + k))
      (hturn : turn m s = .ok (out, next)) (hrest : GivesInTurns rate turn k next rest last) :
      GivesInTurns rate turn (m + k) s (out.toList ++ rest) last

/-- What the first turn of a loop and the rest of it have done, if there is something to fill. -/
theorem GivesInTurns.exists_turn {rate m len : Nat}
    {turn : (len : Nat) → Sponge → Except Fault (Vector UInt8 len × Sponge)}
    {s last : Sponge} {bytes : Bytes} (h : GivesInTurns rate turn len s bytes last)
    (hlen : len ≠ 0) (hm : m = min (rate - s.cursor) len) :
    ∃ (out : Vector UInt8 m) (next : Sponge) (rest : Bytes), turn m s = .ok (out, next) ∧
      GivesInTurns rate turn (len - m) next rest last ∧ bytes = out.toList ++ rest := by
  cases h with
  | done => exact absurd rfl hlen
  | @turn m' k _ next _ out rest _ _ hm' hturn hrest =>
    obtain rfl : m' = m := hm'.trans hm.symm
    rw [Nat.add_sub_cancel_left]
    exact ⟨out, next, rest, hturn, hrest, rfl⟩

/-- There is only one way for the loop to end. -/
theorem GivesInTurns.unique {rate len : Nat}
    {turn : (len : Nat) → Sponge → Except Fault (Vector UInt8 len × Sponge)}
    {s t u : Sponge} {out out' : Bytes} (ht : GivesInTurns rate turn len s out t)
    (hu : GivesInTurns rate turn len s out' u) : out = out' ∧ t = u := by
  induction ht generalizing out' with
  | done s =>
    generalize hlen : 0 = len at hu
    cases hu with
    | done => exact ⟨rfl, rfl⟩
    | turn hne => exact absurd hlen.symm hne
  | turn hlen _ hm hturn _ ih =>
    -- both turns give out equally much, since this depends on the cursor alone
    obtain ⟨piece, next, rest, hturn', hrest', rfl⟩ := hu.exists_turn hlen hm
    rw [hturn] at hturn'
    cases hturn'
    rw [Nat.add_sub_cancel_left] at hrest'
    obtain ⟨rfl, rfl⟩ := ih hrest'
    exact ⟨rfl, rfl⟩

/-- A turn gives out a piece that stays inside the block as `next` gives out its bytes one by one,
    and leads to the front of the end of a block. -/
def IsPieceOf (rate : Nat) (turn : (len : Nat) → Sponge → Except Fault (Vector UInt8 len × Sponge))
    (next : Sponge → Except Fault (UInt8 × Sponge)) : Prop :=
  ∀ (s : State) {cursor len : Nat}, cursor < rate → 0 < len → cursor + len ≤ rate →
    ∃ out t cursor', cursor' < rate ∧
      turn len ⟨s, cursor, .squeezing⟩ = .ok (out, ⟨t, cursor', .squeezing⟩) ∧
      emit next len ⟨s, cursor, .squeezing⟩ = .ok (out, ⟨t, cursor', .squeezing⟩)

section squeeze

variable {rate : Nat} {turn : (len : Nat) → Sponge → Except Fault (Vector UInt8 len × Sponge)}
  {next : Sponge → Except Fault (UInt8 × Sponge)}

/-- In front of the end of a block, the loop that fills a buffer ends, and what it gives out is what
    the sponge gives out byte by byte. -/
theorem IsPieceOf.givesInTurns (hturn : IsPieceOf rate turn next) (len : Nat) (s : State)
    {cursor : Nat} (hcursor : cursor < rate) :
    ∃ out t, emit next len ⟨s, cursor, .squeezing⟩ = .ok (out, t) ∧
      t.phase = .squeezing ∧ t.cursor < rate ∧
      GivesInTurns rate turn len ⟨s, cursor, .squeezing⟩ out.toList t := by
  induction len using Nat.strongRecOn generalizing s cursor with
  | ind len ih =>
    by_cases hlen : len = 0
    · subst hlen
      exact ⟨_, _, rfl, rfl, hcursor, .done _⟩
    · obtain ⟨m, k, hm, rfl⟩ : ∃ m k, m = min (rate - cursor) (m + k) ∧ len = m + k :=
        ⟨min (rate - cursor) len, len - min (rate - cursor) len, by omega, by omega⟩
      obtain ⟨out, u, cursor', hcursor', hpiece, hbytes⟩ :=
        hturn s hcursor (show 0 < m by omega) (by omega)
      obtain ⟨rest, t, hemit, hphase, hlt, hrest⟩ := ih k (by omega) u hcursor'
      have htotal : emit next (m + k) ⟨s, cursor, .squeezing⟩ = .ok (out ++ rest, t) := by
        rw [emit_add, hbytes]
        show (emit next k ⟨u, cursor', .squeezing⟩).bind _ = _
        rw [hemit]
        rfl
      refine ⟨out ++ rest, t, htotal, hphase, hlt, ?_⟩
      rw [Vector.toList_append]
      exact .turn hlen (Nat.le_of_lt hcursor) hm hpiece hrest

/-- A sponge squeezes in such a loop, if closing its input leads to the front of the end of a
    block. -/
theorem IsPieceOf.squeeze_inTurns (hturn : IsPieceOf rate turn next)
    {close : Sponge → Except Fault Sponge} {s : Sponge}
    (hclose : ∃ state cursor, cursor < rate ∧ close s = .ok ⟨state, cursor, .squeezing⟩)
    (len : Nat) :
    ∃ r out t, close s = .ok r ∧ (close s).bind (emit next len) = .ok (out, t) ∧
      t.phase = .squeezing ∧ t.cursor < rate ∧ GivesInTurns rate turn len r out.toList t := by
  obtain ⟨state, cursor, hcursor, hclose⟩ := hclose
  obtain ⟨out, t, hemit, hphase, hlt, hturns⟩ := hturn.givesInTurns len state hcursor
  refine ⟨_, out, t, hclose, ?_, hphase, hlt, hturns⟩
  rw [hclose]
  exact hemit

/-- To squeeze is to close the input and to run this loop. -/
theorem IsPieceOf.squeeze_iff_inTurns (hturn : IsPieceOf rate turn next)
    {close : Sponge → Except Fault Sponge} {s : Sponge}
    (hclose : ∃ state cursor, cursor < rate ∧ close s = .ok ⟨state, cursor, .squeezing⟩)
    {len : Nat} {out : Vector UInt8 len} {t : Sponge} :
    (close s).bind (emit next len) = .ok (out, t) ↔
      ∃ r, close s = .ok r ∧ GivesInTurns rate turn len r out.toList t := by
  obtain ⟨r, out', t', hr, hemit, -, -, hturns⟩ := hturn.squeeze_inTurns hclose len
  rw [hemit, hr]
  constructor
  · rintro ⟨⟩
    exact ⟨r, rfl, hturns⟩
  · rintro ⟨_, ⟨⟩, hturns'⟩
    obtain ⟨hout, rfl⟩ := hturns.unique hturns'
    rw [Vector.toList_inj.1 hout]

end squeeze

end Sponge

theorem State.slice_succ (s : State) (p len : Nat) :
    s.slice p (len + 1) = (s.slice p len).push (s.byte (p + len)) :=
  Vector.ofFn_succ

end Ascon
