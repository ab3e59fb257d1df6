import Ascon.InPlace
import Ascon.Masking.State
import Ascon.Masking.Words

/-! # Masked states in place

  The operations on a masked state as they are carried out on the shares where they
  lie: the checks, the words that are drawn and the changes, in their order. Nothing
  is undone by a refusal, so what one leaves behind can be read off here.

  - Most operations check all that they have to before they change anything.
  - To replace bytes by shared data is to erase the window, and then to add the data.
    The lengths of the shares are compared by the second step only. If they differ,
    the window has been erased by then, in every share, and stays erased.
  - Some operations leave the tape alone, and are run on the shares. All others are
    run on a `Place`: the shares, the tape, and the buffer of the caller.
-/

namespace Ascon

namespace MaskedState

variable {n : Nat}

open Masking Sharing

/-! ### On the shares -/

/-- Combines a word of its own into word `w` of every share. -/
def addWord (x : MaskedState n) (w : Nat) (words : Sharing UInt64 n) : MaskedState n :=
  Vector.zipWith (fun s word => s.modifyWord w (· ^^^ word)) x words

/-- Sets the bits in `lanes` of word `w` to zero, in every share. -/
def clearWord (x : MaskedState n) (w : Nat) (lanes : UInt64) : MaskedState n :=
  x.map (·.modifyWord w (· &&& ~~~lanes))

/-- Sets `len` bytes at `offset` to zero, in every share. -/
def eraseInPlace (offset len : Nat) : InPlace (MaskedState n) Unit := do
  InPlace.check (checkWindow offset len)
  (touched offset len).forM fun w => modify (clearWord · w (lanes offset len w))

/-- Combines each of the given shares into its own share of the bytes at `offset`. -/
def addSharesInPlace (shares : Vector Bytes n) (offset : Nat) : InPlace (MaskedState n) Unit := do
  InPlace.check (checkShareLengths shares)
  InPlace.check (checkWindow offset (leadLength shares))
  modify fun x => Vector.zipWith (fun s share => s.addFrom offset share) x shares

/-- Replaces the bytes at `offset`, share by share. The window, which is as long as the first share,
is checked and erased before the lengths of the shares are compared. -/
def overwriteShares (shares : Vector Bytes n) (offset : Nat) : InPlace (MaskedState n) Unit := do
  eraseInPlace offset (leadLength shares)
  addSharesInPlace shares offset

/-! ### With a tape and a buffer -/

/-- A masked state and the tape it draws from. -/
structure Holder (n : Nat) where
  state : MaskedState n
  tape : Tape

/-- All that a call can change: a masked state, its tape, and the buffer of the caller. -/
structure Place (n : Nat) extends Holder n where
  buffer : Bytes

namespace Place

/-- An operation on the shares, which leaves tape and buffer alone. -/
def onShares (op : InPlace (MaskedState n) Unit) : InPlace (Place n) Unit :=
  op.onPart (·.state) fun p x => { p with state := x }

/-- Draws from the tape. -/
def draw {α : Type} (d : Draw α) : InPlace (Place n) α := fun p =>
  .ok (d.run p.tape).1 { p with tape := (d.run p.tape).2 }

/-- Changes the shares into something that is drawn. -/
def redraw (f : MaskedState n → Draw (MaskedState n)) : InPlace (Place n) Unit := do
  let x ← draw (f (← get).state)
  modify fun p => { p with state := x }

/-- Fills the buffer. -/
def fill (out : Bytes) : InPlace (Place n) Bytes := do
  modify fun p => { p with buffer := out }
  return out

/-- Combines `data` into the bytes at `offset`, in fresh shares. Every word that the data touch is
split and combined by itself. -/
def addBytes (data : Bytes) (offset : Nat) : InPlace (Place n) Unit := do
  InPlace.check (checkWindow offset data.length)
  (touched offset data.length).forM fun w => do
    let words ← draw (split n (pack data offset w) (lanes offset data.length w))
    onShares (modify (addWord · w words))

/-- Replaces the bytes at `offset` by `data`, in fresh shares. -/
def overwriteBytes (data : Bytes) (offset : Nat) : InPlace (Place n) Unit := do
  onShares (eraseInPlace offset data.length)
  addBytes data offset

/-- Refreshes the shares and applies the last `rounds` rounds of the permutation. -/
def permute (rounds : Nat) : InPlace (Place n) Unit := do
  InPlace.check (checkRounds rounds)
  redraw randomize
  redraw (lastRounds rounds)

/-- Recombines the shares, and shares the state afresh. -/
def remask : InPlace (Place n) Unit := do
  InPlace.check (checkShares .stateShares n)
  redraw fun x => do return ofRest (unmask x) (← freshShares n allLanes)

/-- Reads the `len` bytes at `offset` into the buffer. -/
def extractBytes (offset len : Nat) : InPlace (Place n) Bytes := do
  InPlace.check (checkWindow offset len)
  fill (slice (← get).state offset len).toList

/-- Reads the bytes at `offset`, combined with `data`, into a buffer with the given room. -/
def extractAdd (data : Bytes) (room offset : Nat) : InPlace (Place n) Bytes := do
  InPlace.check (checkRoom data room)
  InPlace.check (checkWindow offset data.length)
  fill (xorBytes (slice (← get).state offset data.length).toList data)

end Place

end MaskedState

end Ascon
