import Ascon.Attached
import Ascon.Proofs.Siv

/-! # A sealed message is opened, and nothing else is

  With its tag attached, a message is one byte string. A string is opened to a
  plaintext if and only if it is what sealing makes of that plaintext. This
  holds of every string, also of those that are too short to hold a tag.

  - To cut a tag off a string is the inverse of putting one behind it, and can be
    done with just those strings that are long enough.
  - So what is known of a detached tag, `Opens`, carries over to an attached one.
    Nothing else is asked of the cipher.
  - A cipher whose key is given as a byte string is the cipher with that key, and
    there is one if the string has the right length.
  - An interface that provides attached tags is known by its laws only. They are laws of
    the functions studied here (`provided`), and of no others (`provided_unique`).
-/

namespace Ascon

/-! ### Keys as byte strings -/

section keys

variable {k : Nat} {bytes : Bytes}

/-- The key of a byte string is the key with these bytes. -/
theorem keyOfBytes?_eq_some_iff {key : Vector UInt8 k} :
    keyOfBytes? k bytes = some key ↔ key.toList = bytes := by
  constructor
  · intro h
    unfold keyOfBytes? at h
    split at h
    · cases h
      exact Vector.toList_mk
    · cases h
  · rintro rfl
    exact keyOfBytes?_toList key

theorem exists_keyOfBytes?_iff :
    (∃ key, keyOfBytes? k bytes = some key) ↔ bytes.length = k := by
  constructor
  · rintro ⟨key, hkey⟩
    rw [← keyOfBytes?_eq_some_iff.1 hkey, Vector.length_toList]
  · intro hlen
    exact ⟨_, dif_pos hlen⟩

variable {κ : Type} {make : Vector UInt8 k → κ} {keyOf : κ → Vector UInt8 k}

/-- What is no more than a key is made from the bytes of its key. -/
theorem map_keyOfBytes?_eq_some_iff (hmake : ∀ c, make (keyOf c) = c)
    (hkey : ∀ key, keyOf (make key) = key) {c : κ} :
    (keyOfBytes? k bytes).map make = some c ↔ (keyOf c).toList = bytes := by
  rw [← keyOfBytes?_eq_some_iff, Option.map_eq_some_iff]
  constructor
  · rintro ⟨key, hbytes, rfl⟩
    rw [hkey, hbytes]
  · intro hbytes
    exact ⟨keyOf c, hbytes, hmake c⟩

/-- It is made from just those byte strings that have the length of a key. -/
theorem exists_map_keyOfBytes?_iff :
    (∃ c, (keyOfBytes? k bytes).map make = some c) ↔ bytes.length = k := by
  rw [← exists_keyOfBytes?_iff]
  constructor
  · rintro ⟨c, hc⟩
    obtain ⟨key, hkey, _⟩ := Option.map_eq_some_iff.1 hc
    exact ⟨key, hkey⟩
  · rintro ⟨key, hkey⟩
    exact ⟨make key, Option.map_eq_some_iff.2 ⟨key, hkey, rfl⟩⟩

end keys

namespace Attached

/-! ### Cutting off a tag -/

theorem splitTag?_of_lt {data : Bytes} (h : data.length < tagBytes) : splitTag? data = none :=
  dif_neg (Nat.not_le.2 h)

theorem length_append_tag (body : Bytes) (tag : Tag) :
    (body ++ tag.toList).length = body.length + tagBytes := by
  rw [List.length_append, Vector.length_toList]

/-- What is put behind a string is what is cut off it. -/
theorem splitTag?_append (body : Bytes) (tag : Tag) :
    splitTag? (body ++ tag.toList) = some (body, tag) := by
  have hlen := length_append_tag body tag
  have hstart : (body ++ tag.toList).length - tagBytes = body.length := by omega
  have hle : tagBytes ≤ (body ++ tag.toList).length := by omega
  unfold splitTag?
  simp only [dif_pos hle, hstart, List.take_left, List.drop_left]
  rfl

/-- A string is too short for a tag, or there is one at its end. -/
theorem short_or_append (data : Bytes) :
    data.length < tagBytes ∨ ∃ (body : Bytes) (tag : Tag), data = body ++ tag.toList := by
  by_cases hlt : data.length < tagBytes
  · exact .inl hlt
  · have hlen : (data.drop (data.length - tagBytes)).length = tagBytes := by
      rw [List.length_drop]
      omega
    refine .inr ⟨data.take (data.length - tagBytes), ⟨_, hlen⟩, ?_⟩
    exact (List.take_append_drop _ data).symm

/-! ### Sealing and opening -/

/-- What is left of a string that is not opened. One that is too short stays as it is; of any other
    the tag is left, behind zeros in place of the ciphertext. -/
def leftOver (data : Bytes) : Bytes :=
  if data.length < tagBytes then data
  else List.replicate (data.length - tagBytes) 0 ++ data.drop (data.length - tagBytes)

theorem leftOver_append (body : Bytes) (tag : Tag) :
    leftOver (body ++ tag.toList) = List.replicate body.length 0 ++ tag.toList := by
  have hlen := length_append_tag body tag
  have hstart : (body ++ tag.toList).length - tagBytes = body.length := by omega
  unfold leftOver
  rw [if_neg (by omega), hstart, List.drop_left]

variable {κ : Type} [DetachedCipher κ] {c : κ} {nonce : Nonce} {ad : Bytes}

/-- A cipher with attached tags, under one nonce and with the same associated data on both sides. -/
structure SealsExactly (c : κ) (nonce : Nonce) (ad : Bytes) : Prop where
  /-- Every plaintext can be sealed: into its ciphertext, with the tag behind it. -/
  sealed (p : Bytes) : ∃ out tag, DetachedCipher.encrypt c nonce ad p = .ok (out, tag) ∧
    encrypt c nonce ad p = .ok (out ++ tag.toList) ∧
    (out ++ tag.toList).length = p.length + tagBytes
  /-- A string is opened to what it has been sealed from. -/
  opened_iff (data p : Bytes) :
    decrypt c nonce ad data = .ok (.accepted p) ↔ encrypt c nonce ad p = .ok data
  /-- A string that is not opened is erased, but for its tag, or left alone if it has none. -/
  opened_or_erased (data : Bytes) : (∃ p, decrypt c nonce ad data = .ok (.accepted p)) ∨
    decrypt c nonce ad data = .ok (.rejected (leftOver data))

theorem encrypt_of_detached {p out : Bytes} {tag : Tag}
    (h : DetachedCipher.encrypt c nonce ad p = .ok (out, tag)) :
    encrypt c nonce ad p = .ok (out ++ tag.toList) := by
  unfold encrypt
  rw [h]
  rfl

theorem decrypt_of_lt {data : Bytes} (h : data.length < tagBytes) :
    decrypt c nonce ad data = .ok (.rejected data) := by
  unfold decrypt
  rw [splitTag?_of_lt h]
  rfl

/-- A string with a tag at its end is opened if the tag belongs to the rest. -/
theorem decrypt_append_eq_accepted_iff (body p : Bytes) (tag : Tag) :
    decrypt c nonce ad (body ++ tag.toList) = .ok (.accepted p) ↔
      DetachedCipher.decrypt c nonce ad body tag = .ok (.accepted p) := by
  unfold decrypt
  rw [splitTag?_append]
  show (DetachedCipher.decrypt c nonce ad body tag >>= _) = _ ↔ _
  cases DetachedCipher.decrypt c nonce ad body tag with
  | error fault => exact Iff.rfl
  | ok outcome =>
    cases outcome with
    | accepted _ => exact Iff.rfl
    | rejected buffer =>
      constructor <;> intro h <;> cases h

theorem decrypt_append_of_fault {body : Bytes} {tag : Tag} {fault : Fault}
    (h : DetachedCipher.decrypt c nonce ad body tag = .error fault) :
    decrypt c nonce ad (body ++ tag.toList) = .error fault := by
  unfold decrypt
  rw [splitTag?_append]
  show (DetachedCipher.decrypt c nonce ad body tag >>= _) = _
  rw [h]
  rfl

theorem decrypt_append_of_rejected {body buffer : Bytes} {tag : Tag}
    (h : DetachedCipher.decrypt c nonce ad body tag = .ok (.rejected buffer)) :
    decrypt c nonce ad (body ++ tag.toList) = .ok (.rejected (buffer ++ tag.toList)) := by
  unfold decrypt
  rw [splitTag?_append]
  show (DetachedCipher.decrypt c nonce ad body tag >>= _) = _
  rw [h]
  rfl

/-! ### The interface -/

section interface

variable {k : Nat} [KeyedCipher κ k]

open Interface

theorem encryptDetached_eq_ok_iff {buffer out : Bytes} {tag : Tag} :
    encryptDetached c nonce ad buffer = .ok (.ok tag, out) ↔
      DetachedCipher.encrypt c nonce ad buffer = .ok (out, tag) := by
  rw [encryptDetached_eq]
  refine map_eq_ok_iff (a := (out, tag)) fun p q hpq => Prod.ext ?_ ?_
  · exact (Prod.mk.inj hpq).2
  · exact Except.ok.inj (Prod.mk.inj hpq).1

/-- To encrypt is never turned down. -/
theorem encryptDetached_ne_turnedDown {buffer out : Bytes} {e : Error} :
    encryptDetached c nonce ad buffer ≠ .ok (.error e, out) := by
  rw [encryptDetached_eq]
  cases DetachedCipher.encrypt c nonce ad buffer with
  | error fault => nofun
  | ok r => nofun

theorem ofDecryption_inj (a b : Decryption) (h : ofDecryption a = ofDecryption b) : a = b := by
  cases a <;> cases b <;> cases h <;> rfl

theorem decryptDetached_eq_ok_iff {buffer : Bytes} {tag : Tag} {r : Decryption} :
    decryptDetached c nonce ad buffer tag = .ok (ofDecryption r) ↔
      DetachedCipher.decrypt c nonce ad buffer tag = .ok r := by
  rw [decryptDetached_eq]
  exact map_eq_ok_iff ofDecryption_inj

/-- The functions for attached tags, as an interface provides them. -/
def provided : Provided κ where
  newFromBytes bytes := (keyOfBytes? k bytes).map KeyedCipher.ofKey
  encrypt c nonce ad buffer := (encrypt c nonce ad buffer).map fun out => (.ok (), out)
  decrypt c nonce ad buffer := (decrypt c nonce ad buffer).map ofDecryption
  newFromBytes_key key := by
    rw [keyOfBytes?_toList, new_eq]
    rfl
  newFromBytes_of_length_ne h := by
    rw [keyOfBytes?, dif_neg h]
    rfl
  encrypt_of_ok h := by
    rw [encrypt_of_detached (encryptDetached_eq_ok_iff.1 h)]
    rfl
  encrypt_of_turnedDown h := absurd h encryptDetached_ne_turnedDown
  encrypt_of_fault h := by
    rw [encryptDetached_eq, map_eq_error_iff] at h
    rw [encrypt, h]
    rfl
  decrypt_of_short c nonce ad buffer h := by
    rw [decrypt_of_lt h]
    rfl
  decrypt_of_ok {_ _ _ _ out _} h := by
    have hdec := (decryptDetached_eq_ok_iff (r := .accepted out)).1 h
    rw [(decrypt_append_eq_accepted_iff _ _ _).2 hdec]
    rfl
  decrypt_of_turnedDown {_ _ _ _ out _ _} h := by
    have hdec := (decryptDetached_eq_ok_iff (r := .rejected out)).1 h
    rw [decrypt_append_of_rejected hdec]
    rfl
  decrypt_of_fault h := by
    rw [decryptDetached_eq, map_eq_error_iff] at h
    rw [decrypt_append_of_fault h]
    rfl

/-- An interface provides the same, whatever it is: its laws leave nothing open. -/
theorem provided_unique (P Q : Provided κ) : P = Q := by
  apply Provided.ext
  -- there is a law for everything that the method called by an added method can answer
  case newFromBytes =>
    funext bytes
    by_cases hlen : bytes.length = k
    · obtain ⟨key, rfl⟩ : ∃ key : Vector UInt8 k, key.toList = bytes :=
        ⟨⟨bytes.toArray, hlen⟩, Vector.toList_mk⟩
      rw [P.newFromBytes_key, Q.newFromBytes_key]
    · rw [P.newFromBytes_of_length_ne hlen, Q.newFromBytes_of_length_ne hlen]
  case encrypt =>
    funext c nonce ad buffer
    cases h : encryptDetached c nonce ad buffer with
    | error fault => rw [P.encrypt_of_fault h, Q.encrypt_of_fault h]
    | ok r =>
      obtain ⟨answer, out⟩ := r
      cases answer with
      | error e => rw [P.encrypt_of_turnedDown h, Q.encrypt_of_turnedDown h]
      | ok tag => rw [P.encrypt_of_ok h, Q.encrypt_of_ok h]
  case decrypt =>
    funext c nonce ad buffer
    rcases short_or_append buffer with hlt | ⟨body, tag, rfl⟩
    · rw [P.decrypt_of_short c nonce ad hlt, Q.decrypt_of_short c nonce ad hlt]
    · cases h : decryptDetached c nonce ad body tag with
      | error fault => rw [P.decrypt_of_fault h, Q.decrypt_of_fault h]
      | ok r =>
        obtain ⟨answer, out⟩ := r
        cases answer with
        | error e => rw [P.decrypt_of_turnedDown h, Q.decrypt_of_turnedDown h]
        | ok u => rw [P.decrypt_of_ok h, Q.decrypt_of_ok h]

/-- Whatever interface it is made through, a cipher of a byte string is the cipher of its key. -/
theorem newFromBytes_eq (P : Provided κ) (bytes : Bytes) :
    P.newFromBytes bytes = (keyOfBytes? k bytes).map KeyedCipher.ofKey := by
  rw [provided_unique P provided]
  rfl

end interface

/-- A cipher whose detached tags open its messages exactly does so with attached tags. -/
theorem sealsExactly {recover : Bytes → Tag → Bytes × Tag}
    (h : Opens (DetachedCipher.encrypt c nonce ad) (DetachedCipher.decrypt c nonce ad) recover) :
    SealsExactly c nonce ad where
  sealed p := by
    obtain ⟨out, tag, henc, hdec⟩ := h.exists_enc_dec p
    have hlen : p.length = out.length := ((h.dec_eq_accepted_iff out tag p).1 hdec).1
    refine ⟨out, tag, henc, encrypt_of_detached henc, ?_⟩
    rw [length_append_tag, hlen]
  opened_iff data p := by
    obtain ⟨out, sent, henc, hdec⟩ := h.exists_enc_dec p
    have hlen : p.length = out.length := ((h.dec_eq_accepted_iff out sent p).1 hdec).1
    have hsent : sent.toList.length = tagBytes := Vector.length_toList
    rw [encrypt_of_detached henc, Except.ok.injEq]
    rcases short_or_append data with hlt | ⟨body, tag, rfl⟩
    -- what is sealed is never that short
    · rw [decrypt_of_lt hlt]
      constructor
      · intro hshort
        cases hshort
      · rintro rfl
        rw [length_append_tag] at hlt
        omega
    · have htag : tag.toList.length = tagBytes := Vector.length_toList
      rw [decrypt_append_eq_accepted_iff, h.dec_eq_accepted_iff, henc, Except.ok.injEq,
        Prod.mk.injEq]
      constructor
      · rintro ⟨_, rfl, rfl⟩
        rfl
      -- all tags have one length, so equal strings end in equal tags
      · intro hdata
        obtain ⟨rfl, hlists⟩ := List.append_inj' hdata (hsent.trans htag.symm)
        exact ⟨hlen, rfl, Vector.toList_inj.1 hlists⟩
  opened_or_erased data := by
    rcases short_or_append data with hlt | ⟨body, tag, rfl⟩
    · rw [decrypt_of_lt hlt, leftOver, if_pos hlt]
      exact .inr rfl
    · rcases h.dec_accepted_or_rejected body tag with ⟨p, hp⟩ | hrejected
      · exact .inl ⟨p, (decrypt_append_eq_accepted_iff body p tag).2 hp⟩
      · rw [decrypt_append_of_rejected hrejected, leftOver_append]
        exact .inr rfl

/-- So whatever interface provides attached tags, a buffer is opened to what it is sealed from. -/
theorem SealsExactly.opened_iff_of_provided {k : Nat} [KeyedCipher κ k] (h : SealsExactly c nonce ad)
    (P : Interface.Provided κ) (data p : Bytes) :
    P.decrypt c nonce ad data = .ok (.ok (), p) ↔ P.encrypt c nonce ad p = .ok (.ok (), data) := by
  rw [provided_unique P provided]
  have hdec : (decrypt c nonce ad data).map Interface.ofDecryption = .ok (.ok (), p) ↔
      decrypt c nonce ad data = .ok (.accepted p) :=
    map_eq_ok_iff (a := .accepted p) ofDecryption_inj
  have henc : ((encrypt c nonce ad p).map fun out => (.ok (), out)) =
      (.ok (.ok (), data) : Except Fault (Except Interface.Error Unit × Bytes)) ↔
      encrypt c nonce ad p = .ok data :=
    map_eq_ok_iff fun _ _ hab => (Prod.mk.inj hab).2
  exact hdec.trans ((h.opened_iff data p).trans henc.symm)

/-! ### The ciphers -/

/-- With attached tags, every cipher opens what it has sealed and nothing else, and erases what it
    does not open. A cipher can be made from a byte string if and only if this has the length of the
    cipher's keys, and is then the cipher that holds these bytes as its key. -/
theorem opens_what_it_seals :
    (∀ v : Aead.Variant,
      (∀ bytes, (∃ c, Aead.ofKeyBytes? v bytes = some c) ↔ bytes.length = v.keySize) ∧
      (∀ bytes c, Aead.ofKeyBytes? v bytes = some c ↔ c.key.toList = bytes) ∧
      ∀ (c : Aead v) nonce ad, SealsExactly c nonce ad) ∧
    ∀ v : Siv.Variant,
      (∀ bytes, (∃ c, Siv.ofKeyBytes? v bytes = some c) ↔ bytes.length = v.keySize) ∧
      (∀ bytes c, Siv.ofKeyBytes? v bytes = some c ↔ c.key.toList = bytes) ∧
      ∀ (c : Siv v) nonce ad, SealsExactly c nonce ad := by
  have hmake : ∀ (v : Aead.Variant) (c : Aead v), Aead.mk c.key = c := fun _ _ => rfl
  have hmakeSiv : ∀ (v : Siv.Variant) (c : Siv v), Siv.mk c.key = c := fun _ _ => rfl
  refine ⟨fun v => ⟨fun _ => ?_, fun _ _ => ?_, fun c nonce ad => ?_⟩,
    fun v => ⟨fun _ => ?_, fun _ _ => ?_, fun c nonce ad => ?_⟩⟩
  · exact exists_map_keyOfBytes?_iff
  · exact map_keyOfBytes?_eq_some_iff (hmake v) fun _ => rfl
  · exact sealsExactly (c.opens nonce ad)
  · exact exists_map_keyOfBytes?_iff
  · exact map_keyOfBytes?_eq_some_iff (hmakeSiv v) fun _ => rfl
  · exact sealsExactly (c.opens nonce ad)

end Attached

end Ascon
