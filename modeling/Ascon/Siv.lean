import Ascon.Aead

/-! # Misuse-resistant encryption

  Two passes with the same key. The first one authenticates the associated
  data and the plaintext, which gives the tag; the second one encrypts with a
  keystream that is started from that tag. A nonce that is used twice gives
  away no more than whether two messages were equal.

  - Both passes use the mode of authenticated encryption, each with an initial
    value of its own in place of the variant's.
  - Both passes run on one duplex, in this order to encrypt and in the other
    order to decrypt. That is sound because starting a duplex replaces its
    whole state.
-/

namespace Ascon

namespace Siv

/-- The variants that have a misuse-resistant form. -/
inductive Variant where
  /-- 8 bytes at a time, 6 rounds between blocks. -/
  | ascon128
  /-- 16 bytes at a time, 8 rounds between blocks. -/
  | ascon128a
deriving DecidableEq, Repr

namespace Variant

/-- The variant of authenticated encryption that is underneath. -/
def base : Variant → Aead.Variant
  | ascon128 => .ascon128
  | ascon128a => .ascon128a

/-- The initial value of the pass that gives the tag. -/
def authIv : Variant → Bytes
  | ascon128 => [0x81, 0x40, 0x0c, 0x06, 0, 0, 0, 0]
  | ascon128a => [0x81, 0x80, 0x0c, 0x08, 0, 0, 0, 0]

/-- The initial value of the pass that gives the keystream. -/
def streamIv : Variant → Bytes
  | ascon128 => [0x82, 0x40, 0x0c, 0x06, 0, 0, 0, 0]
  | ascon128a => [0x82, 0x80, 0x0c, 0x08, 0, 0, 0, 0]

/-- The parameters of the pass that gives the tag. -/
def authParameters (v : Variant) : Parameters := { v.base.parameters with iv := v.authIv }

/-- The parameters of the pass that gives the keystream. -/
def streamParameters (v : Variant) : Parameters := { v.base.parameters with iv := v.streamIv }

/-- The number of bytes in a key of a variant. -/
abbrev keySize (v : Variant) : Nat := v.base.keySize

end Variant

/-! ### The two passes -/

variable {δ : Type} {m : Type → Type} [Monad m] [KeyedDuplex δ m]

open KeyedDuplex

/-- The tag of a message. -/
def authenticate (p : Parameters) (nonce : Nonce) (ad data : Bytes) (d : δ) : m (Tag × δ) := do
  let d ← Aead.setUp p nonce d
  let d ← Aead.absorbAssociated p ad d
  let d ← Aead.absorb p data d
  Aead.finalize p d

/-- Combines each piece with what the state shows behind a permutation. -/
def streamPieces (p : Parameters) : List Bytes → δ → m (Bytes × δ)
  | [], d => return ([], d)
  | piece :: pieces, d => do
    let d ← permute p.rounds d
    let stream ← extractBytes 0 piece.length d
    let (rest, d) ← streamPieces p pieces d
    return (xorBytes piece stream.toList ++ rest, d)

/-- Combines `data` with the keystream that is started from a tag. -/
def applyStream (p : Parameters) (tag : Tag) (data : Bytes) (d : δ) : m (Bytes × δ) := do
  let d ← Aead.setUp p tag d
  streamPieces p (Blocks.pieces p.rate data) d

end Siv

/-- A misuse-resistant cipher, which is the key it holds. -/
structure Siv (v : Siv.Variant) where
  key : Vector UInt8 v.keySize
deriving DecidableEq, Repr

namespace Siv

variable {v : Variant}

/-- Encrypts `data`. The result is the ciphertext and the tag. -/
def encrypt (c : Siv v) (nonce : Nonce) (ad data : Bytes) : Except Fault (Bytes × Tag) := do
  let (tag, d) ← authenticate v.authParameters nonce ad data (PlainDuplex.new c.key)
  let (out, _) ← applyStream v.streamParameters tag data d
  return (out, tag)

/-- Decrypts `data` and checks it against `tag`. -/
def decrypt (c : Siv v) (nonce : Nonce) (ad data : Bytes) (tag : Tag) :
    Except Fault Decryption := do
  let (out, d) ← applyStream v.streamParameters tag data (PlainDuplex.new c.key)
  let (expected, _) ← authenticate v.authParameters nonce ad out d
  return .ofTags expected tag out

end Siv

end Ascon
