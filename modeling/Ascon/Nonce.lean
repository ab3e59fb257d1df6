import Ascon.Sizes
import Ascon.Lane

/-! # Nonces

  A nonce is sixteen bytes. Senders that number their messages use it as a
  big-endian counter: `ofCounter` starts it at a number, and `increment` moves
  it on by one, from the last byte to the first with a carry. The nonce with
  all bits set is followed by zero.
-/

namespace Ascon

/-- The sixteen bytes that must differ from message to message. -/
abbrev Nonce := Vector UInt8 nonceBytes

namespace Nonce

/-- The nonce with no bit set. -/
def zero : Nonce := Vector.replicate nonceBytes 0

/-- The nonce that holds the number `n`. -/
def ofCounter (n : UInt64) : Nonce :=
  let high : Vector UInt8 8 := Vector.replicate 8 0
  high ++ bigEndian64 n

/-- Adds one at the end of a big-endian byte string. The result is the new string and the carry out
of its first byte. -/
def addOne : Bytes → Bytes × UInt16
  | [] => ([], 1)
  | b :: rest =>
    let (rest, carry) := addOne rest
    let sum := carry + b.toUInt16
    (sum.toUInt8 :: rest, sum >>> 8)

@[simp] theorem length_addOne (bytes : Bytes) : (addOne bytes).1.length = bytes.length := by
  induction bytes with
  | nil => rfl
  | cons b rest ih => simp [addOne, ih]

/-- The next nonce. The carry out of the first byte is dropped. -/
def increment (n : Nonce) : Nonce := ⟨(addOne n.toList).1.toArray, by simp⟩

/-! ### Commands -/

/-- What a caller can ask of a nonce. -/
inductive Command where
  | set (nonce : Nonce)
  | setCounter (n : UInt64)
  /-- Move it on by one, as many times as given. -/
  | increment (times : Nat)
deriving Repr

/-- What a nonce becomes under a command. -/
def apply (n : Nonce) : Command → Nonce
  | .set nonce => nonce
  | .setCounter k => ofCounter k
  | .increment times => times.repeat increment n

end Nonce

end Ascon
