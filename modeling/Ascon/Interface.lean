import Ascon.Siv

/-! # The interface of the ciphers

  A caller who does not want to know which cipher he has can use any of them through
  an interface, which is the same for all.

  - A cipher takes part with three methods: it is made from a key, and it encrypts
    and decrypts a buffer where it lies, with the tag apart. These methods are written
    down once for all ciphers. They answer, and they leave something in the buffer.
  - A method reads its nonce and its tag as byte strings, and converts them into what
    the cipher asks for. Since they come with the right lengths, this cannot fail.
  - The interface has one error, which gives no reason. A tag that does not match
    becomes this error.
  - So the methods are the operations of the cipher, in other clothes (`new_eq`,
    `encryptDetached_eq`, `decryptDetached_eq`).
  - What the interface adds to these methods of its own accord comes with it, and is
    not defined here. `Provided` are the laws by which it is known.
-/

namespace Ascon

/-- A cipher that gives its tag apart from the ciphertext. -/
class DetachedCipher (κ : Type) where
  /-- Encrypts `data`. The result is the ciphertext and the tag. -/
  encrypt (c : κ) (nonce : Nonce) (ad data : Bytes) : Except Fault (Bytes × Tag)
  /-- Decrypts `data` and checks it against `tag`. -/
  decrypt (c : κ) (nonce : Nonce) (ad data : Bytes) (tag : Tag) : Except Fault Decryption

/-- A cipher that is made from a key of `k` bytes. -/
class KeyedCipher (κ : Type) (k : outParam Nat) where
  ofKey (key : Vector UInt8 k) : κ

instance Aead.detachedCipher {v : Aead.Variant} : DetachedCipher (Aead v) :=
  ⟨Aead.encrypt, Aead.decrypt⟩

instance Aead.keyedCipher {v : Aead.Variant} : KeyedCipher (Aead v) v.keySize := ⟨Aead.mk⟩

instance Siv.detachedCipher {v : Siv.Variant} : DetachedCipher (Siv v) := ⟨Siv.encrypt, Siv.decrypt⟩

instance Siv.keyedCipher {v : Siv.Variant} : KeyedCipher (Siv v) v.keySize := ⟨Siv.mk⟩

/-- The key, or another array of `k` bytes, that a byte string holds, if it has the right length. -/
def keyOfBytes? (k : Nat) (bytes : Bytes) : Option (Vector UInt8 k) :=
  if h : bytes.length = k then some ⟨bytes.toArray, by simp [h]⟩ else none

@[simp] theorem keyOfBytes?_toList {k : Nat} (key : Vector UInt8 k) :
    keyOfBytes? k key.toList = some key := by
  unfold keyOfBytes?
  rw [dif_pos Vector.length_toList]
  rfl

namespace Interface

/-- The error of the interface. -/
inductive Error where
  /-- Something does not have its length, or a tag does not match. -/
  | turnedDown
deriving DecidableEq, Repr

/-- The wording of the error, which gives no reason. -/
def Error.message : Error → String
  | turnedDown => "aead::Error"

/-! ### Conversions -/

/-- A byte string as an array of `k` bytes, unless it has another length. -/
def toArray (k : Nat) (bytes : Bytes) : Except Error (Vector UInt8 k) :=
  match keyOfBytes? k bytes with
  | some array => .ok array
  | none => .error .turnedDown

/-- A byte string as a nonce. -/
def convertNonce (nonce : Bytes) : Except Error Nonce := toArray nonceBytes nonce

/-- A byte string as a tag. -/
def convertTag (tag : Bytes) : Except Error Tag := toArray tagBytes tag

/-- A blank key with the given one copied over it. -/
def convertKey {k : Nat} (key : Vector UInt8 k) : Vector UInt8 k :=
  (Vector.replicate k 0).zipWith (fun _ b => b) key

/-- What the interface answers to an attempt to decrypt, and what is left in the buffer. -/
def ofDecryption : Decryption → Except Error Unit × Bytes
  | .accepted plaintext => (.ok (), plaintext)
  | .rejected buffer => (.error .turnedDown, buffer)

@[simp] theorem toArray_toList {k : Nat} (array : Vector UInt8 k) :
    toArray k array.toList = .ok array := by
  rw [toArray, keyOfBytes?_toList]

@[simp] theorem convertNonce_toList (nonce : Nonce) : convertNonce nonce.toList = .ok nonce :=
  toArray_toList nonce

@[simp] theorem convertTag_toList (tag : Tag) : convertTag tag.toList = .ok tag :=
  toArray_toList tag

@[simp] theorem convertKey_eq {k : Nat} (key : Vector UInt8 k) : convertKey key = key := by
  unfold convertKey
  apply Vector.ext
  intro i hi
  rw [Vector.getElem_zipWith]

/-! ### Methods -/

/-- Makes a cipher from a key. -/
def new {κ : Type} {k : Nat} [KeyedCipher κ k] (key : Vector UInt8 k) : κ :=
  KeyedCipher.ofKey (convertKey key)

/-- The cipher is made from its key. -/
theorem new_eq {κ : Type} {k : Nat} [KeyedCipher κ k] (key : Vector UInt8 k) :
    (new key : κ) = KeyedCipher.ofKey key := by
  rw [new, convertKey_eq]

section methods

variable {κ : Type} [DetachedCipher κ]

/-- Encrypts a buffer, and answers with the tag. -/
def encryptDetached (c : κ) (nonce : Nonce) (ad buffer : Bytes) :
    Except Fault (Except Error Tag × Bytes) :=
  match convertNonce nonce.toList with
  | .error e => return (.error e, buffer)
  | .ok nonce => do
    let (out, tag) ← DetachedCipher.encrypt c nonce ad buffer
    return (.ok tag, out)

/-- Decrypts a buffer, if the tag belongs to it. -/
def decryptDetached (c : κ) (nonce : Nonce) (ad buffer : Bytes) (tag : Tag) :
    Except Fault (Except Error Unit × Bytes) :=
  match convertNonce nonce.toList with
  | .error e => return (.error e, buffer)
  | .ok nonce =>
    match convertTag tag.toList with
    | .error e => return (.error e, buffer)
    | .ok tag => do
      return ofDecryption (← DetachedCipher.decrypt c nonce ad buffer tag)

/-- The method encrypts as the cipher does, and is never turned down. -/
theorem encryptDetached_eq (c : κ) (nonce : Nonce) (ad buffer : Bytes) :
    encryptDetached c nonce ad buffer =
      (DetachedCipher.encrypt c nonce ad buffer).map fun r => (.ok r.2, r.1) := by
  unfold encryptDetached
  rw [convertNonce_toList]
  rfl

/-- The method decrypts as the cipher does, and is turned down if the tag does not match. -/
theorem decryptDetached_eq (c : κ) (nonce : Nonce) (ad buffer : Bytes) (tag : Tag) :
    decryptDetached c nonce ad buffer tag =
      (DetachedCipher.decrypt c nonce ad buffer tag).map ofDecryption := by
  unfold decryptDetached
  rw [convertNonce_toList, convertTag_toList]
  rfl

end methods

/-! ### What the interface provides -/

/-- What the interface adds to the methods of a cipher. A law says what an added method does, in terms
of the method of the cipher that it calls. -/
@[ext]
structure Provided (κ : Type) {k : Nat} [KeyedCipher κ k] [DetachedCipher κ] where
  /-- Makes a cipher from a byte string, which should have the length of a key. -/
  newFromBytes (bytes : Bytes) : Option κ
  /-- Encrypts a buffer that can grow. -/
  encrypt (c : κ) (nonce : Nonce) (ad buffer : Bytes) : Except Fault (Except Error Unit × Bytes)
  /-- Decrypts a buffer that can shrink. -/
  decrypt (c : κ) (nonce : Nonce) (ad buffer : Bytes) : Except Fault (Except Error Unit × Bytes)
  newFromBytes_key (key : Vector UInt8 k) : newFromBytes key.toList = some (new key)
  newFromBytes_of_length_ne {bytes : Bytes} (h : bytes.length ≠ k) : newFromBytes bytes = none
  /-- The tag is put behind the ciphertext. -/
  encrypt_of_ok {c : κ} {nonce : Nonce} {ad buffer out : Bytes} {tag : Tag}
    (h : encryptDetached c nonce ad buffer = .ok (.ok tag, out)) :
    encrypt c nonce ad buffer = .ok (.ok (), out ++ tag.toList)
  encrypt_of_turnedDown {c : κ} {nonce : Nonce} {ad buffer out : Bytes} {e : Error}
    (h : encryptDetached c nonce ad buffer = .ok (.error e, out)) :
    encrypt c nonce ad buffer = .ok (.error e, out)
  encrypt_of_fault {c : κ} {nonce : Nonce} {ad buffer : Bytes} {fault : Fault}
    (h : encryptDetached c nonce ad buffer = .error fault) :
    encrypt c nonce ad buffer = .error fault
  /-- A buffer in which there is no room for a tag is left alone. -/
  decrypt_of_short (c : κ) (nonce : Nonce) (ad : Bytes) {buffer : Bytes}
    (h : buffer.length < tagBytes) :
    decrypt c nonce ad buffer = .ok (.error .turnedDown, buffer)
  /-- A tag that matches is cut off. -/
  decrypt_of_ok {c : κ} {nonce : Nonce} {ad body out : Bytes} {tag : Tag}
    (h : decryptDetached c nonce ad body tag = .ok (.ok (), out)) :
    decrypt c nonce ad (body ++ tag.toList) = .ok (.ok (), out)
  /-- A tag that does not match stays where it is. -/
  decrypt_of_turnedDown {c : κ} {nonce : Nonce} {ad body out : Bytes} {tag : Tag} {e : Error}
    (h : decryptDetached c nonce ad body tag = .ok (.error e, out)) :
    decrypt c nonce ad (body ++ tag.toList) = .ok (.error e, out ++ tag.toList)
  decrypt_of_fault {c : κ} {nonce : Nonce} {ad body : Bytes} {tag : Tag} {fault : Fault}
    (h : decryptDetached c nonce ad body tag = .error fault) :
    decrypt c nonce ad (body ++ tag.toList) = .error fault

end Interface

end Ascon
