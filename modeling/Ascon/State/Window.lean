import Ascon.Fault
import Ascon.State.Basic

/-! # Windows into a state

  Callers reach the bytes of a state through a window: some bytes at some
  offset. Each operation here first checks that its window lies inside the
  state, as natural numbers, so that an offset near the top of a machine word
  cannot wrap around. An operation that is refused changes nothing.

  Operations with two buffers are told how much room the output buffer has,
  and compare the lengths before they look at the window.
-/

namespace Ascon

/-- Refuses a window that does not lie inside the state. -/
def checkWindow (offset len : Nat) : Except Fault Unit :=
  if offset + len ≤ stateBytes then .ok () else .error (.window offset len)

theorem checkWindow_of_le {offset len : Nat} (h : offset + len ≤ 40) :
    checkWindow offset len = .ok () := if_pos h

theorem checkWindow_of_lt {offset len : Nat} (h : 40 < offset + len) :
    checkWindow offset len = .error (.window offset len) := if_neg (Nat.not_le.2 h)

/-- Refuses an input that does not fill the room for its output. -/
def checkRoom (data : Bytes) (room : Nat) : Except Fault Unit :=
  if data.length = room then .ok () else .error .bufferLengths

/-- Combines two byte strings by exclusive or, up to the end of the shorter one. -/
def xorBytes (a b : Bytes) : Bytes := List.zipWith (· ^^^ ·) a b

@[simp] theorem length_xorBytes (a b : Bytes) :
    (xorBytes a b).length = min a.length b.length := List.length_zipWith

namespace State

/-- Replaces the bytes at `offset` by `data`. -/
def overwriteBytes (s : State) (data : Bytes) (offset : Nat) : Except Fault State := do
  checkWindow offset data.length
  return s.setFrom offset data

/-- Combines `data` into the bytes at `offset`. -/
def addBytes (s : State) (data : Bytes) (offset : Nat) : Except Fault State := do
  checkWindow offset data.length
  return s.addFrom offset data

/-- Sets `len` bytes at `offset` to zero. -/
def overwriteZeroes (s : State) (offset len : Nat) : Except Fault State := do
  checkWindow offset len
  return s.setFrom offset (List.replicate len 0)

/-- The `len` bytes at `offset`. -/
def extractBytes (s : State) (offset len : Nat) : Except Fault (Vector UInt8 len) := do
  checkWindow offset len
  return s.slice offset len

/-- The byte at `offset`. -/
def extractByte (s : State) (offset : Nat) : Except Fault UInt8 := do
  return (← s.extractBytes offset 1)[0]

/-- The bytes at `offset` combined with `data`, for an output buffer with the given room. -/
def extractAdd (s : State) (data : Bytes) (room offset : Nat) : Except Fault Bytes := do
  checkRoom data room
  checkWindow offset data.length
  return xorBytes (s.slice offset data.length).toList data

/-- The bytes at `offset` combined with `data`, and the state in which `data` has replaced them.

This is one step of decryption: given ciphertext it yields plaintext, and it leaves the ciphertext
in the state, as `addExtract` does on the encrypting side. -/
def extractOverwrite (s : State) (data : Bytes) (offset : Nat) : Except Fault (Bytes × State) := do
  checkWindow offset data.length
  return (xorBytes (s.slice offset data.length).toList data, s.setFrom offset data)

/-- The same as `extractOverwrite`, for an output buffer with the given room. -/
def extractOverwriteInto (s : State) (data : Bytes) (room offset : Nat) :
    Except Fault (Bytes × State) := do
  checkRoom data room
  s.extractOverwrite data offset

/-- Combines `data` into the bytes at `offset`, and gives the bytes that are there afterwards.

This is one step of encryption. -/
def addExtract (s : State) (data : Bytes) (offset : Nat) : Except Fault (Bytes × State) := do
  checkWindow offset data.length
  let next := s.addFrom offset data
  return ((next.slice offset data.length).toList, next)

end State

end Ascon
