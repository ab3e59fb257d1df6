import Ascon.Blocks
import Ascon.Permutation
import Ascon.State.Window

/-! # The sponge

  A sponge takes in bytes and gives out bytes, in pieces of any size. It works
  through its state block by block, with a cursor at the next byte of the
  current block, and it is either absorbing or squeezing.

  - Absorbing is defined byte by byte: a piece is the fold of its bytes, so
    how a message is cut into pieces does not show. To work through the piece
    block by block comes to the same, as long as the cursor stands inside a block.
  - Squeezing is a repetition of one step, which differs from one construction
    to the next and is a parameter of `Sponge.emit`.
  - Absorbing anything, even the empty string, turns a squeezing sponge back:
    the state is permuted and a new block begins.
-/

namespace Ascon

/-- Whether a sponge is taking in or giving out. -/
inductive Phase where
  /-- The sponge is taking in. -/
  | absorbing
  /-- The sponge is giving out. -/
  | squeezing
deriving DecidableEq, Repr

/-- A state with the place that has been reached in it. -/
structure Sponge where
  state : State
  /-- The number of bytes of the current block that are used up. -/
  cursor : Nat
  /-- Whether the sponge is absorbing or squeezing. -/
  phase : Phase
deriving DecidableEq, Repr

namespace Sponge

/-- A sponge at the start of an absorbing phase, on the permuted state. -/
def begin (s : State) : Sponge := ⟨s.permute12, 0, .absorbing⟩

/-- A sponge on the zero state, with nothing absorbed. -/
def blank : Sponge := ⟨State.zero, 0, .absorbing⟩

/-- The sponge as it has to be before it can absorb. -/
def resume (s : Sponge) : Sponge :=
  match s.phase with
  | .absorbing => s
  | .squeezing => begin s.state

/-- Absorbs one byte, and permutes at the end of a block. -/
def absorbByte (rate rounds : Nat) (s : Sponge) (b : UInt8) : Except Fault Sponge := do
  let state ← s.state.addBytes [b] s.cursor
  if s.cursor + 1 = rate then
    return { s with state := ← state.permute rounds, cursor := 0 }
  else
    return { s with state, cursor := s.cursor + 1 }

/-- Absorbs a piece of a message. -/
def absorb (rate rounds : Nat) (s : Sponge) (data : Bytes) : Except Fault Sponge :=
  data.foldlM (absorbByte rate rounds) s.resume

/-- Squeezes `len` bytes, each by one step of `next`. -/
def emit (next : Sponge → Except Fault (UInt8 × Sponge)) :
    (len : Nat) → Sponge → Except Fault (Vector UInt8 len × Sponge)
  | 0, s => return (#v[], s)
  | len + 1, s => do
    let (out, s) ← emit next len s
    let (b, s) ← next s
    return (out.push b, s)

@[simp] theorem resume_of_absorbing {s : Sponge} (h : s.phase = .absorbing) : s.resume = s := by
  simp [resume, h]

/-- An empty piece is absorbed by resuming, and no more. -/
@[simp] theorem absorb_nil (rate rounds : Nat) (s : Sponge) :
    s.absorb rate rounds [] = .ok s.resume := rfl

end Sponge

/-! ### Bound output lengths -/

/-- Output lengths from here on, in bytes, cannot be bound into an initial value. -/
def maxBoundOutput : Nat := 0x20000000

/-- The number of bits of an output of `len` bytes, as an initial value holds it: lengths that do
not fit count as `0`, which stands for output of any length. -/
def boundOutputBits (len : Nat) : UInt32 :=
  if len < maxBoundOutput then (len * 8).toUInt32 else 0

end Ascon
