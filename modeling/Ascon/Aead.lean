import Ascon.Aead.Mode

/-! # Authenticated encryption

  The three variants of the mode, and the cipher over a plain state.
-/

namespace Ascon

namespace Aead

/-- The variants of the mode. -/
inductive Variant where
  /-- A key of 16 bytes, 8 bytes at a time, 6 rounds between blocks. -/
  | ascon128
  /-- A key of 16 bytes, 16 bytes at a time, 8 rounds between blocks. -/
  | ascon128a
  /-- A key of 20 bytes, 8 bytes at a time, 6 rounds between blocks. -/
  | ascon80pq
deriving DecidableEq, Repr

/-- The parameters of a variant. -/
def Variant.parameters : Variant → Parameters
  | ascon128 =>
    { keySize := 16, rate := 8, rounds := 6, iv := [0x80, 0x40, 0x0c, 0x06, 0, 0, 0, 0] }
  | ascon128a =>
    { keySize := 16, rate := 16, rounds := 8, iv := [0x80, 0x80, 0x0c, 0x08, 0, 0, 0, 0] }
  | ascon80pq =>
    { keySize := 20, rate := 8, rounds := 6, iv := [0xa0, 0x40, 0x0c, 0x06] }

/-- The number of bytes in a key of a variant. -/
abbrev Variant.keySize (v : Variant) : Nat := v.parameters.keySize

end Aead

/-- A cipher, which is the key it holds. -/
structure Aead (v : Aead.Variant) where
  key : Vector UInt8 v.keySize
deriving DecidableEq, Repr

namespace Aead

variable {v : Variant}

/-- Encrypts `data`. The result is the ciphertext and the tag.

A nonce must not be used twice with one key. -/
def encrypt (c : Aead v) (nonce : Nonce) (ad data : Bytes) : Except Fault (Bytes × Tag) :=
  encryptWith v.parameters nonce ad data (PlainDuplex.new c.key)

/-- Decrypts `data` and checks it against `tag`. -/
def decrypt (c : Aead v) (nonce : Nonce) (ad data : Bytes) (tag : Tag) : Except Fault Decryption :=
  decryptWith v.parameters nonce ad data tag (PlainDuplex.new c.key)

end Aead

end Ascon
