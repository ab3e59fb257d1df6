import Ascon.Interface

/-! # Attached tags and channels

  What a caller sees of a cipher, whichever it is. These are the functions that an
  interface provides, as they follow from its laws.

  - With an attached tag, a message is one byte string: the ciphertext and
    behind it the tag. A string that is too short to hold a tag is turned down
    as it stands. One whose tag does not match keeps its length, and its tag,
    but not its contents.
  - A channel is a cipher with the nonce of its next message.
-/

namespace Ascon

/-! ### Keys of a length that has to be checked -/

/-- The wording of a key that does not have the length of the cipher's keys. -/
def keyLengthMessage : String := "Invalid Length"

/-- The cipher whose key is the given byte string, if that has the right length. -/
def Aead.ofKeyBytes? (v : Aead.Variant) (bytes : Bytes) : Option (Aead v) :=
  (keyOfBytes? v.keySize bytes).map Aead.mk

/-- The misuse-resistant cipher whose key is the given byte string, if that has the right length. -/
def Siv.ofKeyBytes? (v : Siv.Variant) (bytes : Bytes) : Option (Siv v) :=
  (keyOfBytes? v.keySize bytes).map Siv.mk

/-! ### Attached tags -/

namespace Attached

variable {κ : Type} [DetachedCipher κ]

/-- The wording of a message that is turned down, which gives no reason. -/
def rejectionMessage : String := Interface.Error.turnedDown.message

/-- The ciphertext of `data` with its tag behind it. -/
def encrypt (c : κ) (nonce : Nonce) (ad data : Bytes) : Except Fault Bytes := do
  let (out, tag) ← DetachedCipher.encrypt c nonce ad data
  return out ++ tag.toList

/-- A message without its last sixteen bytes, and those bytes, if there are as many. -/
def splitTag? (data : Bytes) : Option (Bytes × Tag) :=
  if h : tagBytes ≤ data.length then
    let start := data.length - tagBytes
    some (data.take start, ⟨(data.drop start).toArray, by
      rw [List.size_toArray, List.length_drop]; omega⟩)
  else none

/-- Decrypts a message that has its tag behind it. -/
def decrypt (c : κ) (nonce : Nonce) (ad data : Bytes) : Except Fault Decryption :=
  match splitTag? data with
  | none => return .rejected data
  | some (body, tag) => do
    match ← DetachedCipher.decrypt c nonce ad body tag with
    | .accepted plaintext => return .accepted plaintext
    | .rejected buffer => return .rejected (buffer ++ tag.toList)

end Attached

/-! ### Channels -/

/-- A cipher with the nonce of its next message. -/
structure Channel (κ : Type) where
  cipher : κ
  nonce : Nonce

namespace Channel

variable {κ : Type}

/-- What a caller can ask of a channel. -/
inductive Command where
  | nonce (c : Nonce.Command)
  | encrypt (ad data : Bytes)
  | decrypt (ad data : Bytes) (tag : Tag)
  | encryptAttached (ad data : Bytes)
  | decryptAttached (ad data : Bytes)
deriving Repr

/-- What a channel replies to a command. -/
inductive Reply where
  | done
  | encrypted (out : Bytes) (tag : Tag)
  | attached (out : Bytes)
  | decrypted (outcome : Decryption)
deriving DecidableEq, Repr

/-- What a channel does with a command. Only the nonce can change, and only on request. -/
def obey [DetachedCipher κ] (ch : Channel κ) : Command → Except Fault (Reply × Channel κ)
  | .nonce c => return (.done, { ch with nonce := ch.nonce.apply c })
  | .encrypt ad data => do
    let (out, tag) ← DetachedCipher.encrypt ch.cipher ch.nonce ad data
    return (.encrypted out tag, ch)
  | .decrypt ad data tag => do
    return (.decrypted (← DetachedCipher.decrypt ch.cipher ch.nonce ad data tag), ch)
  | .encryptAttached ad data => do
    return (.attached (← Attached.encrypt ch.cipher ch.nonce ad data), ch)
  | .decryptAttached ad data => do
    return (.decrypted (← Attached.decrypt ch.cipher ch.nonce ad data), ch)

end Channel

end Ascon
