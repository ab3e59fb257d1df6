import Ascon.Proofs.Blocks
import Ascon.Proofs.State.Absorb
import Ascon.Proofs.State.Window
import Ascon.Sponge

/-! # Sponges without a buffer

  A sponge works its input into the state byte by byte, and keeps a cursor. Here
  the same is said without either. An unbuffered sponge knows the whole input of
  the phase it is in, or how much it has given out since its input was closed,
  and computes what is asked for from that.

  - Two pieces of input, or of output, are the same as one. This holds of every
    sponge, wherever its cursor is.
  - `Construction` lists what differs from one sponge to another: the two rates,
    the number of rounds, what closing an input does behind the padding byte,
    and how often the state has been permuted by the time a byte is read.
  - `Construction.sponge` is the sponge, with cursor and all, that stands where
    an unbuffered one stands. To absorb a byte is to append it to the input, and
    to squeeze one is to count one up. Whole pieces follow by induction.
-/

namespace Ascon

/-! ### Pieces -/

/-- What comes out of two operations in a row has come through both. -/
theorem exists_of_bind_eq_ok {ε α β : Type} {x : Except ε α} {f : α → Except ε β} {b : β}
    (h : x.bind f = .ok b) : ∃ a, x = .ok a ∧ f a = .ok b := by
  cases x with
  | error e => cases h
  | ok a => exact ⟨a, rfl, h⟩

/-- To do two things in a row and look at the result is to look at the result of both. -/
theorem bind_bind_ok {ε α β γ : Type} (x : Except ε α) (f : α → Except ε β) (g : β → γ) :
    x.bind (fun a => (f a).bind fun b => .ok (g b)) = (x.bind f).map g := by
  cases x with
  | error e => rfl
  | ok a =>
    show (f a).bind _ = (f a).map g
    cases f a <;> rfl

namespace Sponge

variable {rate rounds : Nat} {next : Sponge → Except Fault (UInt8 × Sponge)} {s t : Sponge}

theorem phase_absorbByte {b : UInt8} (h : s.absorbByte rate rounds b = .ok t) :
    t.phase = s.phase := by
  unfold absorbByte at h
  obtain ⟨_, -, h⟩ := exists_of_bind_eq_ok h
  split at h
  · obtain ⟨_, -, h⟩ := exists_of_bind_eq_ok h
    cases h
    rfl
  · cases h
    rfl

/-- A sponge that has absorbed is absorbing. -/
theorem absorbing_of_absorb {data : Bytes} (h : s.absorb rate rounds data = .ok t) :
    t.phase = .absorbing := by
  have hresume : s.resume.phase = .absorbing := by
    unfold resume
    split
    · assumption
    · rfl
  unfold absorb at h
  generalize s.resume = r at h hresume
  induction data generalizing r with
  | nil =>
    cases h
    exact hresume
  | cons b data ih =>
    rw [List.foldlM_cons] at h
    obtain ⟨q, hq, h⟩ := exists_of_bind_eq_ok h
    exact ih q h ((phase_absorbByte hq).trans hresume)

/-- Two pieces are absorbed like one. -/
theorem absorb_append (rate rounds : Nat) (s : Sponge) (a b : Bytes) :
    s.absorb rate rounds (a ++ b) =
      (do (← s.absorb rate rounds a).absorb rate rounds b) := by
  unfold absorb
  rw [List.foldlM_append]
  change (s.absorb rate rounds a).bind _ = (s.absorb rate rounds a).bind _
  cases hab : s.absorb rate rounds a with
  | error fault => rfl
  | ok t =>
    show _ = b.foldlM (absorbByte rate rounds) t.resume
    rw [resume_of_absorbing (absorbing_of_absorb hab)]
    rfl

/-- Two pieces of output make up one. -/
theorem emit_add (next : Sponge → Except Fault (UInt8 × Sponge)) (m n : Nat) (s : Sponge) :
    emit next (m + n) s = (do
      let p ← emit next m s
      let q ← emit next n p.2
      return (p.1 ++ q.1, q.2)) := by
  induction n with
  | zero =>
    simp only [emit, Nat.add_zero, pure_bind, Vector.append_empty]
    exact (bind_pure _).symm
  | succ n ih =>
    show (emit next (m + n) s >>= _) = _
    simp only [emit, ih, bind_assoc, pure_bind, Vector.append_push]

/-- How a sponge gives out bytes: by `close` it goes over to squeezing, unless it is squeezing
    already, and by `next` it stays in its phase. -/
structure Squeezes (close : Sponge → Except Fault Sponge)
    (next : Sponge → Except Fault (UInt8 × Sponge)) : Prop where
  phase_close {s t : Sponge} (h : close s = .ok t) : t.phase = .squeezing
  close_squeezing {s : Sponge} (h : s.phase = .squeezing) : close s = .ok s
  phase_next {s t : Sponge} {b : UInt8} (h : next s = .ok (b, t)) : t.phase = s.phase

variable {close : Sponge → Except Fault Sponge}

theorem Squeezes.phase_emit (h : Squeezes close next) {len : Nat} {out : Vector UInt8 len}
    (hemit : emit next len s = .ok (out, t)) : t.phase = s.phase := by
  induction len generalizing t with
  | zero =>
    cases hemit
    rfl
  | succ len ih =>
    obtain ⟨⟨_, r⟩, hr, hemit⟩ := exists_of_bind_eq_ok hemit
    obtain ⟨⟨_, q⟩, hq, hemit⟩ := exists_of_bind_eq_ok hemit
    cases hemit
    exact (h.phase_next hq).trans (ih hr)

/-- Two pieces are squeezed like one, since there is nothing to close in front of the second. -/
theorem Squeezes.squeeze_add (h : Squeezes close next) (m n : Nat) (s : Sponge) :
    (close s).bind (emit next (m + n)) = (do
      let p ← (close s).bind (emit next m)
      let q ← (close p.2).bind (emit next n)
      return (p.1 ++ q.1, q.2)) := by
  cases hclose : close s with
  | error fault => rfl
  | ok r =>
    show emit next (m + n) r = (emit next m r).bind _
    rw [emit_add]
    show (emit next m r).bind _ = _
    cases hemit : emit next m r with
    | error fault => rfl
    | ok p =>
      have hphase : p.2.phase = .squeezing := (h.phase_emit hemit).trans (h.phase_close hclose)
      show _ = ((close p.2).bind (emit next n)).bind _
      rw [h.close_squeezing hphase]
      rfl

end Sponge

/-! ### Constructions -/

/-- What differs from one construction of a sponge to another. -/
structure Construction where
  /-- The number of bytes taken in between permutations. -/
  rateIn : Nat
  /-- The number of bytes given out between permutations. -/
  rateOut : Nat
  /-- The number of rounds between blocks. -/
  rounds : Nat
  /-- What becomes of the state when its input, with the padding byte behind it, is closed. -/
  close : State → State
  /-- How often the state has been permuted when the byte at a position of the output is read. -/
  turnsAt : Nat → Nat
  /-- How often the state has been permuted when so many bytes have been squeezed. -/
  turnsAfter : Nat → Nat

/-- Where an unbuffered sponge stands. -/
inductive Stage where
  /-- Since the state was `start`, the bytes of `input` have been absorbed. -/
  | absorbing (start : State) (input : Bytes)
  /-- Since the state was `closed`, at the end of an input, `count` bytes have been squeezed. -/
  | squeezing (closed : State) (count : Nat)

/-- What a sponge can be asked for. -/
inductive Call where
  | absorb (data : Bytes)
  | squeeze (len : Nat)

namespace Construction

variable (con : Construction)

/-! ### The unbuffered sponge -/

/-- The state behind the full blocks of an input. -/
def filled (start : State) (input : Bytes) : State :=
  start.absorbBlocks con.rounds (Blocks.of con.rateIn input).full

/-- The state at the end of an input: what is left of it goes in with the padding byte behind it. -/
def closed (start : State) (input : Bytes) : State :=
  con.close (con.filled start input ^^^
    .holding 0 ((Blocks.of con.rateIn input).rest ++ [padByte]))

/-- The state permuted `n` times. -/
def turned (n : Nat) (s : State) : State := Nat.repeat (State.lastRounds con.rounds) n s

/-- The byte at position `j` of the output from a closed state on. -/
def outputByte (s : State) (j : Nat) : UInt8 :=
  (con.turned (con.turnsAt j) s).byte (j % con.rateOut)

/-- The `len` bytes of the output behind the first `count` ones. -/
def output (s : State) (count len : Nat) : Vector UInt8 len :=
  Vector.ofFn fun i => con.outputByte s (count + i)

/-- Absorbs a piece. The first one behind an output starts from the permuted state. -/
def absorb : Stage → Bytes → Stage
  | .absorbing start input, data => .absorbing start (input ++ data)
  | .squeezing closed count, data =>
    .absorbing (con.turned (con.turnsAfter count) closed).permute12 data

/-- Squeezes `len` bytes. The first ones behind an input close it. -/
def squeeze (len : Nat) : Stage → Vector UInt8 len × Stage
  | .absorbing start input =>
    let closed := con.closed start input
    (con.output closed 0 len, .squeezing closed len)
  | .squeezing closed count => (con.output closed count len, .squeezing closed (count + len))

/-- What an unbuffered sponge does with a call: the bytes that were squeezed, if any, and the next
    stage. It refuses nothing. -/
def obey (stage : Stage) : Call → Except Fault (Option Bytes × Stage)
  | .absorb data => .ok (none, con.absorb stage data)
  | .squeeze len =>
    let (out, next) := con.squeeze len stage
    .ok (some out.toList, next)

/-! ### The sponge with its buffer -/

/-- The sponge that stands where the unbuffered one stands. -/
def sponge : Stage → Sponge
  | .absorbing start input =>
    ⟨con.filled start input ^^^ .holding 0 (Blocks.of con.rateIn input).rest,
      input.length % con.rateIn, .absorbing⟩
  | .squeezing closed count =>
    ⟨con.turned (con.turnsAfter count) closed, count % con.rateOut, .squeezing⟩

/-- A construction describes a sponge that closes its input by `close` and gives out bytes by
    `next`. -/
structure Describes (close : Sponge → Except Fault Sponge)
    (next : Sponge → Except Fault (UInt8 × Sponge)) : Prop extends Sponge.Squeezes close next where
  /-- A block is not empty, and fits into the state. -/
  rateIn_bounds : 0 < con.rateIn ∧ con.rateIn ≤ stateBytes
  /-- There is such a number of rounds. -/
  rounds_bounds : 1 ≤ con.rounds ∧ con.rounds ≤ maxRounds
  turnsAfter_zero : con.turnsAfter 0 = 0
  close_absorbing (s : State) {cursor : Nat} (h : cursor < con.rateIn) :
    close ⟨s, cursor, .absorbing⟩ = .ok ⟨con.close (s.addFrom cursor [padByte]), 0, .squeezing⟩
  next_eq (s : State) (j : Nat) :
    next (con.sponge (.squeezing s j)) =
      .ok (con.outputByte s j, con.sponge (.squeezing s (j + 1)))

variable {con} {close : Sponge → Except Fault Sponge}
  {next : Sponge → Except Fault (UInt8 × Sponge)}

theorem turned_succ (n : Nat) (s : State) :
    con.turned (n + 1) s = (con.turned n s).lastRounds con.rounds := rfl

theorem output_succ (s : State) (count len : Nat) :
    con.output s count (len + 1) =
      (con.output s count len).push (con.outputByte s (count + len)) := Vector.ofFn_succ

/-- A longer output goes on where a shorter one ends. -/
theorem output_add (s : State) (count m n : Nat) :
    con.output s count (m + n) = con.output s count m ++ con.output s (count + m) n := by
  unfold output
  rw [Vector.ofFn_add]
  congr
  funext i
  rw [Fin.val_natAdd, Nat.add_assoc]

/-! ### Absorbing -/

theorem sponge_absorbing_nil (s : State) :
    con.sponge (.absorbing s []) = ⟨s, 0, .absorbing⟩ := by
  have hnil : Blocks.of con.rateIn [] = ⟨[], []⟩ := by
    unfold Blocks.of
    rw [List.length_nil, Nat.zero_div]
    rfl
  simp only [sponge, filled, hnil, State.xor_holding_nil, List.length_nil, Nat.zero_mod]
  rfl

/-- The cursor behind one more byte. -/
theorem cursor_succ {rate : Nat} (hrate : 0 < rate) (n : Nat) :
    (n + 1) % rate = if n % rate + 1 = rate then 0 else n % rate + 1 := by
  have hlt := Nat.mod_lt n hrate
  rw [← Nat.mod_add_mod]
  split
  · next hfull => rw [hfull, Nat.mod_self]
  · exact Nat.mod_eq_of_lt (by omega)

/-- A byte goes into the state at the cursor, and the last one of a block is followed by the
    permutation. -/
theorem absorbByte_of_add {rate rounds : Nat} (hrounds : 1 ≤ rounds ∧ rounds ≤ maxRounds)
    {s t : State} {cursor : Nat} {b : UInt8} (hadd : s.addBytes [b] cursor = .ok t) :
    Sponge.absorbByte rate rounds ⟨s, cursor, .absorbing⟩ b =
      .ok (if cursor + 1 = rate then ⟨t.lastRounds rounds, 0, .absorbing⟩
        else ⟨t, cursor + 1, .absorbing⟩) := by
  have hpermute := State.permute_of_le t hrounds
  unfold Sponge.absorbByte
  rw [hadd]
  show (if cursor + 1 = rate then _ else _) = _
  split
  · rw [hpermute]
    rfl
  · rfl

/-- There is room for a byte behind what is left of an input. -/
theorem rest_fits (h : con.Describes close next) (input : Bytes) (b : UInt8) :
    (Blocks.of con.rateIn input).rest.length + [b].length ≤ 40 := by
  obtain ⟨hpos, hle⟩ := h.rateIn_bounds
  have hlt := Blocks.length_rest_lt hpos input
  rw [stateBytes] at hle
  rw [List.length_singleton]
  omega

/-- A byte that is absorbed is appended to the input. -/
theorem absorbByte_sponge (h : con.Describes close next) (start : State) (input : Bytes)
    (b : UInt8) :
    Sponge.absorbByte con.rateIn con.rounds (con.sponge (.absorbing start input)) b =
      .ok (con.sponge (.absorbing start (input ++ [b]))) := by
  have hpos := h.rateIn_bounds.1
  have hlt := Nat.mod_lt input.length hpos
  have hrest := Blocks.length_rest con.rateIn input
  have hfits := rest_fits h input b
  have hadd : (con.filled start input ^^^ .holding 0 (Blocks.of con.rateIn input).rest).addBytes
      [b] (input.length % con.rateIn) =
        .ok (con.filled start input ^^^ .holding 0 ((Blocks.of con.rateIn input).rest ++ [b])) := by
    rw [← hrest, State.addBytes_of_le _ hfits, State.xor_holding_append _ hfits]
  have hcursor := cursor_succ hpos input.length
  rw [sponge, absorbByte_of_add h.rounds_bounds hadd, sponge, List.length_append,
    List.length_singleton, hcursor]
  unfold filled
  by_cases hfull : input.length % con.rateIn + 1 = con.rateIn
  -- the byte fills the block, and the permutation takes it away
  · have hfill : (Blocks.of con.rateIn input).rest.length + [b].length = con.rateIn := by
      rw [hrest]
      exact hfull
    have hblocks := Blocks.of_append_of_eq hpos input hfill
    rw [if_pos hfull, if_pos hfull, hblocks, State.absorbBlocks_concat, State.xor_holding_nil]
  · have hopen : (Blocks.of con.rateIn input).rest.length + [b].length < con.rateIn := by
      rw [hrest, List.length_singleton]
      omega
    have hblocks := Blocks.of_append_of_lt input hopen
    rw [if_neg hfull, if_neg hfull, hblocks]

/-- A piece that is absorbed is appended to the input. -/
theorem foldlM_sponge (h : con.Describes close next) (start : State) (input data : Bytes) :
    data.foldlM (Sponge.absorbByte con.rateIn con.rounds) (con.sponge (.absorbing start input)) =
      .ok (con.sponge (.absorbing start (input ++ data))) := by
  induction data generalizing input with
  | nil => rw [List.append_nil]; rfl
  | cons b data ih =>
    have htail := ih (input ++ [b])
    rw [List.append_assoc] at htail
    rw [List.foldlM_cons, absorbByte_sponge h]
    exact htail

/-- A sponge absorbs as the unbuffered one does. -/
theorem absorb_sponge (h : con.Describes close next) (stage : Stage) (data : Bytes) :
    (con.sponge stage).absorb con.rateIn con.rounds data =
      .ok (con.sponge (con.absorb stage data)) := by
  cases stage with
  | absorbing start input => exact foldlM_sponge h start input data
  | squeezing closed count =>
    -- the permuted state begins a new input
    have hresume : (con.sponge (.squeezing closed count)).resume =
        con.sponge (.absorbing (con.turned (con.turnsAfter count) closed).permute12 []) := by
      rw [sponge_absorbing_nil]
      rfl
    unfold Sponge.absorb
    rw [hresume]
    exact foldlM_sponge h _ [] data

/-! ### Squeezing -/

/-- The end of an input goes in with the padding byte behind it. -/
theorem close_sponge (h : con.Describes close next) (start : State) (input : Bytes) :
    close (con.sponge (.absorbing start input)) =
      .ok (con.sponge (.squeezing (con.closed start input) 0)) := by
  have hlt := Nat.mod_lt input.length h.rateIn_bounds.1
  have hrest := Blocks.length_rest con.rateIn input
  have hfits := rest_fits h input padByte
  rw [sponge, h.close_absorbing _ hlt, sponge, h.turnsAfter_zero, closed,
    State.xor_holding_append _ hfits, hrest, Nat.zero_mod]
  rfl

/-- The bytes that a squeezing sponge gives out are the next ones of the output. -/
theorem emit_sponge (h : con.Describes close next) (closed : State) (count len : Nat) :
    Sponge.emit next len (con.sponge (.squeezing closed count)) =
      .ok (con.output closed count len, con.sponge (.squeezing closed (count + len))) := by
  induction len with
  | zero => rfl
  | succ len ih =>
    have hnext := h.next_eq closed (count + len)
    rw [Sponge.emit, ih, output_succ]
    show (next (con.sponge (.squeezing closed (count + len)))).bind _ = _
    rw [hnext]
    rfl

/-- A sponge squeezes as the unbuffered one does. -/
theorem squeeze_sponge (h : con.Describes close next) (stage : Stage) (len : Nat) :
    (close (con.sponge stage)).bind (Sponge.emit next len) =
      .ok ((con.squeeze len stage).map id con.sponge) := by
  cases stage with
  | absorbing start input =>
    have hemit := emit_sponge h (con.closed start input) 0 len
    rw [Nat.zero_add] at hemit
    rw [close_sponge h]
    exact hemit
  | squeezing closed count =>
    rw [h.close_squeezing rfl]
    exact emit_sponge h closed count len

end Construction
end Ascon
