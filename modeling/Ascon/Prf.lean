import Ascon.Sponge

/-! # Keyed pseudorandom functions

  A sponge that is started with a key, takes in 32 bytes between permutations
  and gives out 16 bytes between permutations.

  - Unlike an XOF, it permutes before a block of output and not behind it, so
    closing the input does not permute at all.
  - `mac` is the PRF for 16 bytes of output.
  - `prfShort` is a function of its own, for at most 16 bytes in and out, with
    a single call of the permutation.
-/

namespace Ascon

/-- The key of a PRF. -/
abbrev PrfKey := Vector UInt8 prfKeyBytes

/-- The tag of a MAC. -/
abbrev MacTag := Vector UInt8 macTagBytes

/-- A keyed PRF with some input absorbed and some output squeezed. -/
structure Prf where
  sponge : Sponge
deriving DecidableEq, Repr

namespace Prf

/-- The number of bytes taken in between permutations. -/
def rateIn : Nat := 32

/-- The number of bytes given out between permutations. -/
def rateOut : Nat := 16

/-- The number of rounds between blocks. -/
def rounds : Nat := 12

/-- The state from which a PRF starts: an initial value with the bits of the output in its second
half, the key, and zeros. -/
def initialState (key : PrfKey) (len : Nat) : State :=
  let iv : Vector UInt8 4 := #v[0x80, 0x80, 0x8c, 0x00]
  let rest : Vector UInt8 16 := Vector.replicate 16 0
  .ofBytes (iv ++ bigEndian32 (boundOutputBits len) ++ key ++ rest)

/-- A PRF for `len` bytes of output. A length of `0`, like one that does not fit into the initial
value, stands for output of any length. -/
def withOutputLen (key : PrfKey) (len : Nat) : Prf := ⟨.begin (initialState key len)⟩

/-- A PRF for output of any length. -/
def new (key : PrfKey) : Prf := withOutputLen key 0

/-- Absorbs a piece of the input. -/
def absorb (p : Prf) (data : Bytes) : Except Fault Prf := do
  return ⟨← p.sponge.absorb rateIn rounds data⟩

/-- Closes the input of an absorbing sponge with its padding and the separator. -/
def closeInput (s : Sponge) : Except Fault Sponge :=
  match s.phase with
  | .squeezing => return s
  | .absorbing => do
    let state ← s.state.addBytes [padByte] s.cursor
    let state ← state.addBytes [separatorByte] (stateBytes - 1)
    return ⟨state, 0, .squeezing⟩

/-- The next byte of output. The first byte of a block comes behind a permutation. -/
def nextByte (s : Sponge) : Except Fault (UInt8 × Sponge) := do
  let state ← if s.cursor = 0 then s.state.permute rounds else pure s.state
  let b ← state.extractByte s.cursor
  return (b, { s with state, cursor := (s.cursor + 1) % rateOut })

/-- Squeezes the next `len` bytes of output. -/
def squeeze (p : Prf) (len : Nat) : Except Fault (Vector UInt8 len × Prf) := do
  let (out, sponge) ← Sponge.emit nextByte len (← closeInput p.sponge)
  return (out, ⟨sponge⟩)

/-! ### Commands -/

/-- What a caller can ask of a PRF. -/
inductive Command where
  | absorb (data : Bytes)
  | squeeze (len : Nat)
deriving Repr

/-- What a PRF does with a command: the bytes that were squeezed, if any, and the next PRF. -/
def obey (p : Prf) : Command → Except Fault (Option Bytes × Prf)
  | .absorb data => return (none, ← p.absorb data)
  | .squeeze len => do
    let (out, p) ← p.squeeze len
    return (out.toList, p)

end Prf

/-! ### One message at a time -/

/-- The first `len` bytes that a PRF gives out for `data`. -/
def Prf.eval (p : Prf) (data : Bytes) (len : Nat) : Except Fault (Vector UInt8 len) := do
  let (out, _) ← (← p.absorb data).squeeze len
  return out

/-- The PRF for output of any length: the first `len` bytes for `data`. -/
def prf (key : PrfKey) (data : Bytes) (len : Nat) : Except Fault (Vector UInt8 len) :=
  (Prf.new key).eval data len

/-- The PRF for `len` bytes of output. -/
def prfFixed (key : PrfKey) (data : Bytes) (len : Nat) : Except Fault (Vector UInt8 len) :=
  (Prf.withOutputLen key len).eval data len

/-- The tag of `data`. -/
def mac (key : PrfKey) (data : Bytes) : Except Fault MacTag := prfFixed key data macTagBytes

/-- Whether `tag` is the tag of `data`. -/
def verifyMac (key : PrfKey) (data : Bytes) (tag : MacTag) : Except Fault Bool := do
  return (← mac key data) == tag

/-! ### Short messages -/

/-- Why the short PRF turns a request down. -/
inductive PrfShortError where
  /-- The input has this many bytes, more than the function takes. -/
  | inputTooLong (len : Nat)
  /-- This many bytes of output were asked for, more than the function gives. -/
  | outputTooLong (len : Nat)
  /-- A contract was broken on the way. -/
  | fault (cause : Fault)
deriving DecidableEq, Repr

/-- The wording of an error of the short PRF. -/
def PrfShortError.message : PrfShortError → String
  | .inputTooLong len => s!"input of {len} bytes is longer than {prfShortMaxInput} bytes"
  | .outputTooLong len => s!"output of {len} bytes is longer than {prfShortMaxOutput} bytes"
  | .fault cause => cause.message

/-- The place of the input, and of the output, of the short PRF: the last sixteen bytes. -/
def prfShortOffset : Nat := stateBytes - 16

/-- The state of the short PRF before its permutation, for an input of at most sixteen bytes. -/
def prfShortInitial (key : PrfKey) (data : Bytes) : Except Fault State := do
  let state ← State.zero.overwriteBytes
    [0x80, (data.length * 8).toUInt8, 0x4c, 0x80, 0, 0, 0, 0] 0
  let state ← state.overwriteBytes key.toList 8
  state.overwriteBytes data prfShortOffset

/-- The short PRF: `len` bytes for `data`. Too long an input is noticed before too long an
output. -/
def prfShort (key : PrfKey) (data : Bytes) (len : Nat) :
    Except PrfShortError (Vector UInt8 len) := do
  if prfShortMaxInput < data.length then throw (.inputTooLong data.length)
  if prfShortMaxOutput < len then throw (.outputTooLong len)
  Except.mapError PrfShortError.fault do
    let state ← prfShortInitial key data
    let state ← state.permute12.addBytes key.toList prfShortOffset
    state.extractBytes prfShortOffset len

end Ascon
