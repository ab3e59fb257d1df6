import Ascon.Masking.InPlace

/-! # Commands to a masked state

  Everything a caller can ask of a masked state, and what is done about it.

  - `Place.obey` carries out a command where the shares, the tape and the buffer
    lie. It also says what a refusal leaves of them.
  - `Holder.obey` is the same for a caller who has kept a copy and goes back to it
    when he is refused. A copy is one of the state together with the tape, so that
    going back to an earlier state goes back to an earlier place on the tape.
  - `apply` says what becomes of the state as a function of the state.
-/

namespace Ascon.MaskedState

/-- What a caller can ask of a masked state of `n` shares. -/
inductive Command (n : Nat) where
  | permute (rounds : Nat)
  | randomize
  /-- Recombine the shares, and share the state afresh. -/
  | remask
  | add (data : Bytes) (offset : Nat)
  | overwrite (data : Bytes) (offset : Nat)
  | zero (offset len : Nat)
  | erase
  /-- Combine shared data into the bytes at `offset`. -/
  | addShares (shares : Vector Bytes n) (offset : Nat)
  /-- Replace the bytes at `offset` by shared data. -/
  | overwriteShares (shares : Vector Bytes n) (offset : Nat)
  | extract (offset len : Nat)
  /-- Read the bytes at `offset` combined with `data`. -/
  | extractAdd (data : Bytes) (room offset : Nat)
  | count
deriving Repr

/-- What a masked state replies to a command. -/
inductive Reply where
  | done
  | output (out : Bytes)
  | shares (count : Nat)
deriving DecidableEq, Repr

/-- The bytes that were read, if any. -/
def Reply.output? : Reply → Option Bytes
  | .output out => some out
  | _ => none

variable {n : Nat}

/-- A fresh sharing of the zero state, drawn from a tape. -/
def Holder.new (n : Nat) (tape : Tape) : Except Fault (Holder n) := do
  let (state, tape) ← (MaskedState.new n).run tape
  return ⟨state, tape⟩

/-- A fresh sharing of a state, drawn from a tape. -/
def Holder.mask (n : Nat) (s : State) (tape : Tape) : Except Fault (Holder n) := do
  let (state, tape) ← (MaskedState.mask n s).run tape
  return ⟨state, tape⟩

/-- What a masked state replies to a command, and what it becomes. -/
def apply (x : MaskedState n) : Command n → CheckedDraw (Reply × MaskedState n)
  | .permute rounds => return (.done, ← permute x rounds)
  | .randomize => return (.done, ← randomize x)
  | .remask => return (.done, ← mask n (unmask x))
  | .add data offset => return (.done, ← addBytes x data offset)
  | .overwrite data offset => return (.done, ← overwriteBytes x data offset)
  | .zero offset len => return (.done, ← overwriteZeroes x offset len)
  | .erase => return (.done, XorGroup.zeros)
  | .addShares shares offset => return (.done, ← addShares x shares offset)
  | .overwriteShares shares offset => return (.done, ← (overwriteShares shares offset).result x)
  | .extract offset len => return (.output (← extractBytes x offset len).toList, x)
  | .extractAdd data room offset => return (.output (← extractAdd x data room offset), x)
  | .count => return (.shares n, x)

/-- What is done about a command where everything lies. -/
def Place.obey : Command n → InPlace (Place n) Reply
  | .permute rounds => do permute rounds; return .done
  | .randomize => do redraw randomize; return .done
  | .remask => do remask; return .done
  | .add data offset => do addBytes data offset; return .done
  | .overwrite data offset => do overwriteBytes data offset; return .done
  | .zero offset len => do onShares (eraseInPlace offset len); return .done
  | .erase => do onShares (modify fun _ => XorGroup.zeros); return .done
  | .addShares shares offset => do onShares (addSharesInPlace shares offset); return .done
  | .overwriteShares shares offset => do onShares (overwriteShares shares offset); return .done
  | .extract offset len => return .output (← extractBytes offset len)
  | .extractAdd data room offset => return .output (← extractAdd data room offset)
  | .count => return .shares n

/-- What a masked state and its tape do with a command, for a caller who goes back to a copy when he
is refused. -/
def Holder.obey (h : Holder n) (c : Command n) : Except Fault (Reply × Holder n) := do
  let (reply, place) ← (Place.obey c).outcome ⟨h, []⟩
  return (reply, place.toHolder)

end Ascon.MaskedState
