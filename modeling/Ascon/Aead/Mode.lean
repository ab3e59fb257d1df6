import Ascon.Blocks
import Ascon.Duplex

/-! # The mode of authenticated encryption

  One pass over the associated data, one over the message, and a tag at the
  end, over any keyed duplex.

  - Message and associated data are worked through in the same way: every full
    block is followed by the permutation, and what is left, even if it is
    empty, by the padding byte. `feed` is this pass, with the treatment of a
    block as a parameter.
  - Empty associated data are left out altogether. The separator byte goes in
    whether or not there are any, so that a message cannot pass for associated
    data.
  - A message whose tag does not match is not handed out. What the caller gets
    back is as many zero bytes.
-/

namespace Ascon

/-- The numbers by which one variant of the mode differs from another. -/
structure Parameters where
  /-- The number of bytes in a key. -/
  keySize : Nat
  /-- The number of bytes worked through between permutations. -/
  rate : Nat
  /-- The number of rounds between blocks. -/
  rounds : Nat
  /-- The initial value, which is followed by the key and the nonce. -/
  iv : Bytes
deriving DecidableEq, Repr

/-- What comes of an attempt to decrypt. -/
inductive Decryption where
  /-- The tag matches, and this is the plaintext. -/
  | accepted (plaintext : Bytes)
  /-- The tag does not match, and this is what is left of the buffer. -/
  | rejected (buffer : Bytes)
deriving DecidableEq, Repr

/-- The wording of a tag that does not match. -/
def tagMismatchMessage : String := "authentication tag mismatch"

/-- Hands out the plaintext if the tags agree, and as many zero bytes otherwise. -/
def Decryption.ofTags (expected given : Tag) (plaintext : Bytes) : Decryption :=
  if expected == given then .accepted plaintext
  else .rejected (List.replicate plaintext.length 0)

namespace Aead

variable {δ : Type} {m : Type → Type} [Monad m] [KeyedDuplex δ m]

open KeyedDuplex

/-- Starts a duplex with a nonce: permutes the initial state and adds the key at its end. -/
def setUp (p : Parameters) (nonce : Nonce) (d : δ) : m δ := do
  let d ← start p.iv nonce d
  let d ← permute maxRounds d
  addKey (stateBytes - p.keySize) d

/-- Works through full blocks, each followed by the permutation. -/
def feedFull (p : Parameters) (step : Bytes → δ → m (Bytes × δ)) :
    List Bytes → δ → m (Bytes × δ)
  | [], d => return ([], d)
  | block :: blocks, d => do
    let (out, d) ← step block d
    let d ← permute p.rounds d
    let (rest, d) ← feedFull p step blocks d
    return (out ++ rest, d)

/-- Works through all of `data`, and pads it. -/
def feed (p : Parameters) (step : Bytes → δ → m (Bytes × δ)) (data : Bytes) (d : δ) :
    m (Bytes × δ) := do
  let blocks := Blocks.of p.rate data
  let (out, d) ← feedFull p step blocks.full d
  let (last, d) ← step blocks.rest d
  let d ← addBytes [padByte] blocks.rest.length d
  return (out ++ last, d)

/-- Takes in a block and gives nothing out. -/
def absorbBlock (block : Bytes) (d : δ) : m (Bytes × δ) := do
  return ([], ← addBytes block 0 d)

/-- Takes in all of `data`, and pads it. -/
def absorb (p : Parameters) (data : Bytes) (d : δ) : m δ := do
  let (_, d) ← feed p absorbBlock data d
  return d

/-- Takes in the associated data, if there are any, and the separator. -/
def absorbAssociated (p : Parameters) (ad : Bytes) (d : δ) : m δ := do
  let d ← if ad.isEmpty then pure d else do permute p.rounds (← absorb p ad d)
  addBytes [separatorByte] (stateBytes - 1) d

/-- Adds the key before and after the last permutation, and reads the tag. -/
def finalize (p : Parameters) (d : δ) : m (Tag × δ) := do
  let d ← addKey p.rate d
  let d ← permute maxRounds d
  let d ← addKeyTail tagOffset d
  return (← extractBytes tagOffset tagBytes d, d)

/-- Encrypts `data`. The result is the ciphertext and the tag. -/
def encryptWith (p : Parameters) (nonce : Nonce) (ad data : Bytes) (d : δ) : m (Bytes × Tag) := do
  let d ← setUp p nonce d
  let d ← absorbAssociated p ad d
  let (out, d) ← feed p (encryptBytes · 0) data d
  let (tag, _) ← finalize p d
  return (out, tag)

/-- Decrypts `data` and checks it against `tag`. -/
def decryptWith (p : Parameters) (nonce : Nonce) (ad data : Bytes) (tag : Tag) (d : δ) :
    m Decryption := do
  let d ← setUp p nonce d
  let d ← absorbAssociated p ad d
  let (out, d) ← feed p (decryptBytes · 0) data d
  let (expected, _) ← finalize p d
  return .ofTags expected tag out

end Aead

end Ascon
