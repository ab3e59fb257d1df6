/-! # Sizes

  The fixed sizes of the library, each named once. A size that belongs to one
  variant of a mode stands with that variant instead.
-/

namespace Ascon

/-- The number of 64-bit words in a state. -/
def stateWords : Nat := 5

/-- The number of bytes in a state. -/
def stateBytes : Nat := 40

/-- The number of rounds in the full permutation. -/
def maxRounds : Nat := 12

/-- The number of bytes in a nonce. -/
def nonceBytes : Nat := 16

/-- The number of bytes in an authentication tag. -/
def tagBytes : Nat := 16

/-- The number of bytes in a hash digest. -/
def digestBytes : Nat := 32

/-- The number of bytes that the hash sponge takes in, or gives out, between permutations. -/
def xofRate : Nat := 8

/-- The number of bytes in a PRF key. -/
def prfKeyBytes : Nat := 16

/-- The number of bytes in a MAC tag. -/
def macTagBytes : Nat := 16

/-- The longest input of the short PRF, in bytes. -/
def prfShortMaxInput : Nat := 16

/-- The longest output of the short PRF, in bytes. -/
def prfShortMaxOutput : Nat := 16

/-- The fewest shares into which a secret may be split. -/
def minShares : Nat := 2

/-- The most shares into which a secret may be split. -/
def maxShares : Nat := 4

end Ascon
