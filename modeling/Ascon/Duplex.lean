import Ascon.Nonce
import Ascon.Permutation
import Ascon.State.Window

/-! # Keyed duplexes

  A keyed duplex is a state together with the key it is used with. The modes
  of authenticated encryption are written against this interface alone, so
  that one definition of a mode serves the plain state and the masked one.

  - The interface says nothing about how the state or the key is held. Its
    offsets are offsets into the forty bytes of the state.
  - The monad belongs to the duplex: a plain duplex can only be refused, a
    masked one also draws random words.
-/

namespace Ascon

/-- The tag of a message. -/
abbrev Tag := Vector UInt8 tagBytes

/-- The place of the nonce in a fresh state: the last sixteen bytes. -/
def nonceOffset : Nat := stateBytes - nonceBytes

/-- The place of the tag in a finished state: the last sixteen bytes. -/
def tagOffset : Nat := stateBytes - tagBytes

/-- What a mode needs of a state and its key. -/
class KeyedDuplex (δ : Type) (m : outParam (Type → Type)) where
  /-- Replaces the whole state by an initial value, the key and a nonce. -/
  start (iv : Bytes) (nonce : Nonce) (d : δ) : m δ
  /-- Runs the last `rounds` rounds of the permutation. -/
  permute (rounds : Nat) (d : δ) : m δ
  /-- Combines the whole key into the bytes at `offset`. -/
  addKey (offset : Nat) (d : δ) : m δ
  /-- Combines the last sixteen bytes of the key into the bytes at `offset`. -/
  addKeyTail (offset : Nat) (d : δ) : m δ
  /-- Combines public data into the bytes at `offset`. -/
  addBytes (data : Bytes) (offset : Nat) (d : δ) : m δ
  /-- Combines plaintext into the bytes at `offset`, and gives the ciphertext that results. -/
  encryptBytes (data : Bytes) (offset : Nat) (d : δ) : m (Bytes × δ)
  /-- Puts ciphertext in place of the bytes at `offset`, and gives the plaintext that results. -/
  decryptBytes (data : Bytes) (offset : Nat) (d : δ) : m (Bytes × δ)
  /-- Reads `len` bytes at `offset`. -/
  extractBytes (offset len : Nat) (d : δ) : m (Vector UInt8 len)

/-- The last sixteen bytes of a key. -/
def keyTail {k : Nat} (key : Vector UInt8 k) : Bytes := key.toList.drop (k - 16)

/-! ### The plain duplex -/

/-- A plain state and a key of `k` bytes. -/
structure PlainDuplex (k : Nat) where
  state : State
  key : Vector UInt8 k
deriving DecidableEq, Repr

namespace PlainDuplex

variable {k : Nat}

/-- A duplex that has not been started. -/
def new (key : Vector UInt8 k) : PlainDuplex k := ⟨.zero, key⟩

/-- Changes the state by an operation that may be refused. -/
def onState (d : PlainDuplex k) (f : State → Except Fault State) :
    Except Fault (PlainDuplex k) := do
  return { d with state := ← f d.state }

instance keyedDuplex : KeyedDuplex (PlainDuplex k) (Except Fault) where
  start iv nonce d := d.onState fun s => do
    let s ← s.overwriteBytes iv 0
    let s ← s.overwriteBytes d.key.toList iv.length
    s.overwriteBytes nonce.toList nonceOffset
  permute rounds d := d.onState (·.permute rounds)
  addKey offset d := d.onState (·.addBytes d.key.toList offset)
  addKeyTail offset d := d.onState (·.addBytes (keyTail d.key) offset)
  addBytes data offset d := d.onState (·.addBytes data offset)
  encryptBytes data offset d := do
    let (out, state) ← d.state.addExtract data offset
    return (out, { d with state })
  decryptBytes data offset d := do
    let (out, state) ← d.state.extractOverwrite data offset
    return (out, { d with state })
  extractBytes offset len d := d.state.extractBytes offset len

end PlainDuplex

end Ascon
