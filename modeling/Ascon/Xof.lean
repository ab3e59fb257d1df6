import Ascon.Sponge

/-! # Extendable output

  A sponge that takes in eight bytes between permutations, and gives out eight
  bytes between permutations.

  - A block of output that is used up is permuted at once, and not when the
    next byte is asked for.
  - The requested length of the output, if there is one, is part of the
    initial value, so that outputs of different lengths are unrelated. The
    initial value is kept beside the sponge, and `reinit` starts from it.
  - A reader is what remains of an XOF once its input is complete.
-/

namespace Ascon

/-- The two families of hash functions. -/
inductive HashVariant where
  /-- Twelve rounds everywhere. -/
  | ascon
  /-- Eight rounds between blocks. -/
  | asconA
deriving DecidableEq, Repr

namespace HashVariant

/-- The initial value, without the output length in its low half. -/
def iv : HashVariant → UInt64
  | ascon => 0x00400c0000000000
  | asconA => 0x00400c0400000000

/-- The number of rounds between blocks. -/
def rounds : HashVariant → Nat
  | ascon => 12
  | asconA => 8

end HashVariant

/-- An extendable output function with some input absorbed and some output squeezed. -/
structure Xof (v : HashVariant) where
  /-- The initial value from which the sponge was started. -/
  iv : UInt64
  sponge : Sponge
deriving DecidableEq, Repr

namespace Xof

variable {v : HashVariant}

/-! ### Starting -/

/-- An XOF started from the given initial value. -/
def ofIv (iv : UInt64) : Xof v := ⟨iv, .begin { State.zero with x0 := iv }⟩

/-- An XOF for output of any length. -/
def new : Xof v := ofIv v.iv

/-- An XOF for `len` bytes of output. -/
def withOutputLen (len : Nat) : Xof v := ofIv (v.iv ||| (boundOutputBits len).toUInt64)

/-- The XOF as it was when it was started. -/
def reinit (x : Xof v) : Xof v := ofIv x.iv

/-- The XOF with its state and its place in it erased. The initial value stays. -/
def erase (x : Xof v) : Xof v := { x with sponge := .blank }

@[simp] theorem iv_ofIv (iv : UInt64) : (ofIv iv : Xof v).iv = iv := rfl

@[simp] theorem reinit_ofIv (iv : UInt64) : (ofIv iv : Xof v).reinit = ofIv iv := rfl

/-! ### Taking in -/

/-- Absorbs a piece of the input. -/
def absorb (x : Xof v) (data : Bytes) : Except Fault (Xof v) := do
  return { x with sponge := ← x.sponge.absorb xofRate v.rounds data }

/-- Goes on to the start of a fresh block: a partial block is permuted away as it stands, and a
squeezing XOF goes back to absorbing. -/
def pad (x : Xof v) : Except Fault (Xof v) :=
  match x.sponge.phase with
  | .squeezing => x.absorb []
  | .absorbing =>
    if x.sponge.cursor = 0 then
      return x
    else do
      let state ← x.sponge.state.permute v.rounds
      return { x with sponge := { x.sponge with state, cursor := 0 } }

/-! ### Giving out -/

/-- Closes the input of an absorbing sponge with its padding. -/
def closeInput (s : Sponge) : Except Fault Sponge :=
  match s.phase with
  | .squeezing => return s
  | .absorbing => do
    let state ← s.state.addBytes [padByte] s.cursor
    return ⟨state.permute12, 0, .squeezing⟩

/-- The next byte of output. The last byte of a block is followed by the permutation at once. -/
def nextByte (v : HashVariant) (s : Sponge) : Except Fault (UInt8 × Sponge) := do
  let b ← s.state.extractByte s.cursor
  if s.cursor + 1 = xofRate then
    return (b, { s with state := ← s.state.permute v.rounds, cursor := 0 })
  else
    return (b, { s with cursor := s.cursor + 1 })

/-- Squeezes the next `len` bytes of output. -/
def squeeze (x : Xof v) (len : Nat) : Except Fault (Vector UInt8 len × Xof v) := do
  let (out, sponge) ← Sponge.emit (nextByte v) len (← closeInput x.sponge)
  return (out, { x with sponge })

/-! ### Readers -/

/-- The output side of an XOF whose input is complete. -/
structure Reader (v : HashVariant) where
  source : Xof v
deriving DecidableEq, Repr

/-- Reads the next `len` bytes. -/
def Reader.read (r : Reader v) (len : Nat) : Except Fault (Vector UInt8 len × Reader v) := do
  let (out, source) ← r.source.squeeze len
  return (out, ⟨source⟩)

/-- Reads pieces of the given lengths, one after the other. -/
def Reader.readAll (r : Reader v) : List Nat → Except Fault (List Bytes × Reader v)
  | [] => return ([], r)
  | len :: lens => do
    let (out, r) ← r.read len
    let (outs, r) ← r.readAll lens
    return (out.toList :: outs, r)

/-- The reader of everything absorbed so far. -/
def finalize (x : Xof v) : Reader v := ⟨x⟩

/-- The reader of everything absorbed so far, and the XOF started afresh. -/
def finalizeReset (x : Xof v) : Reader v × Xof v := (x.finalize, x.reinit)

/-! ### Commands -/

/-- What a caller can ask of an XOF. -/
inductive Command where
  | absorb (data : Bytes)
  | squeeze (len : Nat)
  /-- Go on to the start of a fresh block. -/
  | pad
  | reinit
  | erase
  | finalize
  /-- Ask for a reader and start afresh. -/
  | finalizeReset
deriving Repr

/-- What an XOF replies to a command. -/
inductive Reply (v : HashVariant) where
  | done
  | output (out : Bytes)
  | reader (r : Reader v)
deriving DecidableEq, Repr

/-- What an XOF does with a command. -/
def obey (x : Xof v) : Command → Except Fault (Reply v × Xof v)
  | .absorb data => return (.done, ← x.absorb data)
  | .squeeze len => do
    let (out, x) ← x.squeeze len
    return (.output out.toList, x)
  | .pad => return (.done, ← x.pad)
  | .reinit => return (.done, x.reinit)
  | .erase => return (.done, x.erase)
  | .finalize => return (.reader x.finalize, x)
  | .finalizeReset =>
    let (r, x) := x.finalizeReset
    return (.reader r, x)

end Xof

end Ascon
