import Ascon.Masking.Sharing
import Ascon.Random.Tape

/-! # Windows word by word

  A masked state does not go through its bytes one by one. It goes through the
  words that a window of bytes touches, and does to each word at once what is to
  be done to the bytes of the window in it.

  - `lanes` are the bits of a word that lie in a window, and `pack` puts the bytes of
    some data that belong into a word at their places there. Both are put together
    byte by byte.
  - `split` shares a word afresh on some of its bits. No other bit is set in any of
    the shares, so the result can be combined into a word without disturbing the
    bytes that lie beside the window.
-/

namespace Ascon.Masking

/-- The number of words that `len` bytes at `offset` touch. -/
def touchedWords (offset len : Nat) : Nat :=
  if len = 0 then 0 else (offset + len - 1) / 8 + 1 - offset / 8

/-- The words that `len` bytes at `offset` touch, in order. -/
def touched (offset len : Nat) : List Nat := List.range' (offset / 8) (touchedWords offset len)

/-- The bits of word `w` that are covered by `len` bytes at `offset`. -/
def lanes (offset len w : Nat) : UInt64 :=
  ((List.range' offset len).filter (· / 8 = w)).foldl
    (fun acc p => acc ||| (0xff <<< Lane.shift (p % 8))) 0

/-- Word `w` with the bytes of `data` that fall into it, if `data` is at `offset`. -/
def pack (data : Bytes) (offset w : Nat) : UInt64 :=
  ((data.zipIdx offset).filter (·.2 / 8 = w)).foldl
    (fun acc b => acc ||| (b.1.toUInt64 <<< Lane.shift (b.2 % 8))) 0

/-- A fresh sharing of the bits of a word that are in `lanes`. -/
def split (n : Nat) (value lanes : UInt64) : Draw (Sharing UInt64 n) := do
  return Sharing.ofRest (value &&& lanes) ((← Draw.words (n - 1)).map (· &&& lanes))

end Ascon.Masking
