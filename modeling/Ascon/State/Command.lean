import Ascon.Permutation
import Ascon.State.Window

/-! # Commands to a state

  Everything a caller can ask of a plain state, as data, so that a whole run
  of requests can be spoken about.
-/

namespace Ascon.State

/-- What a caller can ask of a state. -/
inductive Command where
  | permute (rounds : Nat)
  | permute12
  | permute8
  | permute6
  | add (data : Bytes) (offset : Nat)
  | overwrite (data : Bytes) (offset : Nat)
  | zero (offset len : Nat)
  | erase
  | extract (offset len : Nat)
  /-- Read the bytes at `offset` combined with `data`. -/
  | extractAdd (data : Bytes) (room offset : Nat)
  /-- Read the bytes at `offset` combined with `data`, and put `data` in their place. -/
  | extractOverwriteInto (data : Bytes) (room offset : Nat)
  /-- The same, with one buffer for the input and the output. -/
  | extractOverwrite (data : Bytes) (offset : Nat)
  /-- Combine `data` into the bytes at `offset` and read the outcome. -/
  | addExtract (data : Bytes) (offset : Nat)
deriving Repr

/-- What a state does with a command: the bytes that were read, if any, and the next state. -/
def obey (s : State) : Command → Except Fault (Option Bytes × State)
  | .permute rounds => return (none, ← s.permute rounds)
  | .permute12 => return (none, s.permute12)
  | .permute8 => return (none, s.permute8)
  | .permute6 => return (none, s.permute6)
  | .add data offset => return (none, ← s.addBytes data offset)
  | .overwrite data offset => return (none, ← s.overwriteBytes data offset)
  | .zero offset len => return (none, ← s.overwriteZeroes offset len)
  | .erase => return (none, State.zero)
  | .extract offset len => return ((← s.extractBytes offset len).toList, s)
  | .extractAdd data room offset => return (← s.extractAdd data room offset, s)
  | .extractOverwriteInto data room offset => do
    let (out, next) ← s.extractOverwriteInto data room offset
    return (out, next)
  | .extractOverwrite data offset => do
    let (out, next) ← s.extractOverwrite data offset
    return (out, next)
  | .addExtract data offset => do
    let (out, next) ← s.addExtract data offset
    return (out, next)

end Ascon.State
