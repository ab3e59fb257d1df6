import Ascon.Aead
import Ascon.Masking.InPlace

/-! # Masked authenticated encryption

  The mode of authenticated encryption over a masked state, with a key that is
  split into shares when the cipher is made. From then on the key goes into
  the state share by share and is never recombined.

  - The shares of the key are refreshed in front of every message.
  - Every message starts from a fresh sharing of the zero state.
-/

namespace Ascon

/-! ### Masked keys -/

/-- A key of `k` bytes, split into `n` shares. -/
abbrev MaskedKey (k n : Nat) := Sharing (Vector UInt8 k) n

namespace MaskedKey

variable {k n : Nat}

/-- A fresh sharing of a key. -/
def ofKey (n : Nat) (key : Vector UInt8 k) : CheckedDraw (MaskedKey k n) := do
  checkShares .keyShares n
  return Sharing.ofRest key (← Draw.vector (Draw.bytes k) (n - 1))

/-- The same key in fresh shares. -/
def randomize (key : MaskedKey k n) : Draw (MaskedKey k n) := do
  return key.refreshWith (← Draw.vector (Draw.bytes k) (n - 1))

/-- The same key after `times` refreshes. -/
def randomizeTimes : Nat → MaskedKey k n → Draw (MaskedKey k n)
  | 0, key => return key
  | times + 1, key => do randomizeTimes times (← randomize key)

/-- The shares of a key as byte strings. -/
def parts (key : MaskedKey k n) : Vector Bytes n := key.map (·.toList)

/-- The shares of the last sixteen bytes of a key. -/
def tailParts (key : MaskedKey k n) : Vector Bytes n := key.map keyTail

end MaskedKey

/-! ### The masked duplex -/

/-- A masked state and a masked key of `k` bytes, both in `n` shares. -/
structure MaskedDuplex (k n : Nat) where
  state : MaskedState n
  key : MaskedKey k n

namespace MaskedDuplex

variable {k n : Nat}

/-- Changes the state by an operation that may be refused and may draw from the tape. -/
def onState (d : MaskedDuplex k n) (f : MaskedState n → CheckedDraw (MaskedState n)) :
    CheckedDraw (MaskedDuplex k n) := do
  return { d with state := ← f d.state }

instance keyedDuplex : KeyedDuplex (MaskedDuplex k n) CheckedDraw where
  start iv nonce d := d.onState fun x => do
    let x ← x.overwriteBytes iv 0
    let x ← (MaskedState.overwriteShares d.key.parts iv.length).result x
    x.overwriteBytes nonce.toList nonceOffset
  permute rounds d := d.onState (·.permute rounds)
  addKey offset d := d.onState fun x => do x.addShares d.key.parts offset
  addKeyTail offset d := d.onState fun x => do x.addShares d.key.tailParts offset
  addBytes data offset d := d.onState (·.addBytes data offset)
  encryptBytes data offset d := do
    let d ← d.onState (·.addBytes data offset)
    return ((← d.state.extractBytes offset data.length).toList, d)
  decryptBytes data offset d := do
    let out ← d.state.extractAdd data data.length offset
    return (out, ← d.onState (·.overwriteBytes data offset))
  extractBytes offset len d := do d.state.extractBytes offset len

end MaskedDuplex

/-! ### The cipher -/

/-- A masked cipher, which is the masked key it holds. -/
structure MaskedAead (v : Aead.Variant) (n : Nat) where
  key : MaskedKey v.keySize n

namespace MaskedAead

variable {v : Aead.Variant} {n : Nat}

/-- A cipher whose key is split into `n` fresh shares. -/
def ofKey (n : Nat) (key : Vector UInt8 v.keySize) : CheckedDraw (MaskedAead v n) := do
  return ⟨← MaskedKey.ofKey n key⟩

/-- A cipher whose key is refreshed `times` times after it has been split. -/
def ofRefreshedKey (n : Nat) (key : Vector UInt8 v.keySize) (times : Nat) :
    CheckedDraw (MaskedAead v n) := do
  let key ← MaskedKey.ofKey n key
  return ⟨← key.randomizeTimes times⟩

/-- Readies the cipher for a message: refreshes its key, and gives a duplex for the message. -/
def ready (c : MaskedAead v n) : CheckedDraw (MaskedAead v n × MaskedDuplex v.keySize n) := do
  let key ← c.key.randomize
  return (⟨key⟩, ⟨← MaskedState.new n, key⟩)

/-- Encrypts `data`. The result is the ciphertext and the tag, and the cipher with its new
shares. -/
def encrypt (c : MaskedAead v n) (nonce : Nonce) (ad data : Bytes) :
    CheckedDraw ((Bytes × Tag) × MaskedAead v n) := do
  let (c, d) ← c.ready
  return (← Aead.encryptWith v.parameters nonce ad data d, c)

/-- Decrypts `data` and checks it against `tag`. -/
def decrypt (c : MaskedAead v n) (nonce : Nonce) (ad data : Bytes) (tag : Tag) :
    CheckedDraw (Decryption × MaskedAead v n) := do
  let (c, d) ← c.ready
  return (← Aead.decryptWith v.parameters nonce ad data tag d, c)

/-! ### Channels -/

/-- A masked cipher with the nonce of its next message and the tape it draws from. -/
structure Channel (v : Aead.Variant) (n : Nat) where
  cipher : MaskedAead v n
  nonce : Nonce
  tape : Tape

/-- A channel whose key is split into `n` shares and refreshed `times` times, all from one tape. -/
def Channel.new (n : Nat) (key : Vector UInt8 v.keySize) (times : Nat) (nonce : Nonce)
    (tape : Tape) : Except Fault (Channel v n) := do
  let (cipher, tape) ← (ofRefreshedKey n key times).run tape
  return ⟨cipher, nonce, tape⟩

/-- What a caller can ask of a masked channel. -/
inductive Command where
  | nonce (c : Nonce.Command)
  | encrypt (ad data : Bytes)
  | decrypt (ad data : Bytes) (tag : Tag)
deriving Repr

/-- What a masked channel replies to a command. -/
inductive Reply where
  | done
  | encrypted (out : Bytes) (tag : Tag)
  | decrypted (outcome : Decryption)
deriving DecidableEq, Repr

/-- What a masked channel does with a command. -/
def Channel.obey (ch : Channel v n) : Command → Except Fault (Reply × Channel v n)
  | .nonce c => return (.done, { ch with nonce := ch.nonce.apply c })
  | .encrypt ad data => do
    let (((out, tag), cipher), tape) ← (ch.cipher.encrypt ch.nonce ad data).run ch.tape
    return (.encrypted out tag, { ch with cipher, tape })
  | .decrypt ad data tag => do
    let ((outcome, cipher), tape) ← (ch.cipher.decrypt ch.nonce ad data tag).run ch.tape
    return (.decrypted outcome, { ch with cipher, tape })

end MaskedAead

end Ascon
