import Ascon.Masking.Gate
import Ascon.Permutation
import Ascon.State.Window

/-! # Masked states

  A masked state is a sharing of a state. It can do what a plain state can,
  without ever holding the plain value.

  - The linear layers of a round act on every share for itself; the five gates
    are masked gates.
  - Data that come in are shared afresh on the words that they touch, and on
    those alone. A sharing on part of a word has no bits outside that part. The
    bits of a window are here a state of their own, `windowLanes`; `Masking.lanes`
    are the same bits word by word.
  - Data that come in as shares are added share by share.
  - Data that go out are recombined byte by byte.
-/

namespace Ascon

/-- A state split into `n` shares. -/
abbrev MaskedState (n : Nat) := Sharing State n

namespace Masking

variable {n : Nat}

/-! ### Words and shares -/

/-- The states whose words are given, one list of words for each place in the state. -/
def assemble (w0 w1 w2 w3 w4 : Vector UInt64 n) : Vector State n :=
  Vector.ofFn fun i => ⟨w0.get i, w1.get i, w2.get i, w3.get i, w4.get i⟩

/-- Fresh shares of one word, behind the first one, on the bits in `lanes`. A word without such bits
costs no randomness. -/
def freshWordShares (n : Nat) (lanes : UInt64) : Draw (Vector UInt64 (n - 1)) := do
  if lanes = 0 then
    return Vector.replicate _ 0
  else
    return (← Draw.words (n - 1)).map (· &&& lanes)

/-- Fresh shares of a state, behind the first one, on the bits in `lanes`. They are drawn word by
word. -/
def freshShares (n : Nat) (lanes : State) : Draw (Vector State (n - 1)) := do
  let w0 ← freshWordShares n lanes.x0
  let w1 ← freshWordShares n lanes.x1
  let w2 ← freshWordShares n lanes.x2
  let w3 ← freshWordShares n lanes.x3
  let w4 ← freshWordShares n lanes.x4
  return assemble w0 w1 w2 w3 w4

/-- The state with all bits set. -/
def allLanes : State := ⟨~~~0, ~~~0, ~~~0, ~~~0, ~~~0⟩

/-- The state with the bits of the `len` bytes at `offset` set. -/
def windowLanes (offset len : Nat) : State := State.zero.setFrom offset (List.replicate len 0xff)

end Masking

namespace MaskedState

variable {n : Nat}

open Masking Sharing

/-! ### Sharing and refreshing -/

/-- The state that is shared. -/
def unmask (x : MaskedState n) : State := combine x

/-- The same state in fresh shares. -/
def randomize (x : MaskedState n) : Draw (MaskedState n) := do
  return x.refreshWith (← freshShares n allLanes)

/-- A fresh sharing of the zero state. -/
def new (n : Nat) : CheckedDraw (MaskedState n) := do
  checkShares .stateShares n
  randomize XorGroup.zeros

/-- A fresh sharing of a state. -/
def mask (n : Nat) (s : State) : CheckedDraw (MaskedState n) := do
  checkShares .stateShares n
  return ofRest s (← freshShares n allLanes)

/-! ### The permutation -/

/-- The five gates of a round, each with random words of its own. -/
def gates (x : MaskedState n) : Draw (MaskedState n) := do
  let x0 := x.map State.x0
  let x1 := x.map State.x1
  let x2 := x.map State.x2
  let x3 := x.map State.x3
  let x4 := x.map State.x4
  let t0 ← andNot x0 x1
  let t1 ← andNot x1 x2
  let t2 ← andNot x2 x3
  let t3 ← andNot x3 x4
  let t4 ← andNot x4 x0
  return assemble t0 t1 t2 t3 t4

/-- Combines each word with the gate of its right neighbour. -/
def chi (x : MaskedState n) : Draw (MaskedState n) := do
  return x ^^^ (← gates x).map State.shiftWords

/-- Round `r` of the permutation. -/
def round (r : Nat) (x : MaskedState n) : Draw (MaskedState n) := do
  let x := (onFirst (State.addConstant (roundConstant r)) x).map State.mixIn
  let x := (← chi x).map State.mixOut
  return (onFirst State.complementMiddle x).map State.diffuse

/-- The last `k` rounds of the permutation. -/
def lastRounds : Nat → MaskedState n → Draw (MaskedState n)
  | 0, x => return x
  | k + 1, x => do lastRounds k (← round (maxRounds - 1 - k) x)

/-- The last `rounds` rounds of the permutation, if it has that many, in fresh shares. -/
def permute (x : MaskedState n) (rounds : Nat) : CheckedDraw (MaskedState n) := do
  checkRounds rounds
  lastRounds rounds (← randomize x)

/-! ### Public data -/

/-- Combines `data` into the bytes at `offset`, in fresh shares. -/
def addBytes (x : MaskedState n) (data : Bytes) (offset : Nat) : CheckedDraw (MaskedState n) := do
  checkWindow offset data.length
  let rest ← freshShares n (windowLanes offset data.length)
  return x ^^^ ofRest (State.zero.addFrom offset data) rest

/-- Sets `len` bytes at `offset` to zero, in every share. -/
def overwriteZeroes (x : MaskedState n) (offset len : Nat) : Except Fault (MaskedState n) := do
  checkWindow offset len
  return x.map (·.setFrom offset (List.replicate len 0))

/-- Replaces the bytes at `offset` by `data`, in fresh shares. -/
def overwriteBytes (x : MaskedState n) (data : Bytes) (offset : Nat) :
    CheckedDraw (MaskedState n) := do
  addBytes (← overwriteZeroes x offset data.length) data offset

/-! ### Data in shares -/

/-- The length of the first of some byte strings. -/
def leadLength (shares : Vector Bytes n) : Nat := (shares.toList.headD []).length

/-- Refuses byte strings of different lengths. -/
def checkShareLengths (shares : Vector Bytes n) : Except Fault Unit :=
  if ∀ share ∈ shares.toList, share.length = leadLength shares then .ok ()
  else .error .shareLengths

/-- Combines each of the given shares into its own share of the bytes at `offset`. -/
def addShares (x : MaskedState n) (shares : Vector Bytes n) (offset : Nat) :
    Except Fault (MaskedState n) := do
  checkShareLengths shares
  checkWindow offset (leadLength shares)
  return Vector.zipWith (fun s share => s.addFrom offset share) x shares

/-! ### Reading -/

/-- The byte at position `p`, recombined. -/
def byte (x : MaskedState n) (p : Nat) : UInt8 := combine (x.map (·.byte p))

/-- The `len` bytes from position `p` on, recombined. -/
def slice (x : MaskedState n) (p len : Nat) : Vector UInt8 len :=
  Vector.ofFn fun i => byte x (p + i)

/-- The `len` bytes at `offset`. -/
def extractBytes (x : MaskedState n) (offset len : Nat) : Except Fault (Vector UInt8 len) := do
  checkWindow offset len
  return slice x offset len

/-- The bytes at `offset` combined with `data`, for an output buffer with the given room. -/
def extractAdd (x : MaskedState n) (data : Bytes) (room offset : Nat) : Except Fault Bytes := do
  checkRoom data room
  checkWindow offset data.length
  return xorBytes (slice x offset data.length).toList data

end MaskedState

end Ascon
