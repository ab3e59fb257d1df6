import Ascon.Masking.Aead
import Ascon.Proofs.Aead.Simulation
import Ascon.Proofs.Masking.Access
import Ascon.Proofs.State.Window

/-! # A masked duplex does what the plain one does

  A masked duplex and the plain duplex with the shared state and the shared key
  agree on everything that a mode may ask of them. The key goes into the masked
  state share by share; since taking bytes of a key is additive, this adds the
  bytes of the shared key.
-/

namespace Ascon

open MaskedState Sharing

/-! ### Byte strings in shares -/

section shares

variable {α : Type} {len n : Nat} {f : α → Bytes}

theorem leadLength_map (hn : 0 < n) (hlen : ∀ a, (f a).length = len) (s : Sharing α n) :
    leadLength (s.map f) = len := by
  have hcount : s.toList.length = n := Vector.length_toList
  unfold leadLength
  rw [Vector.toList_map]
  cases hs : s.toList with
  | nil =>
    rw [hs, List.length_nil] at hcount
    omega
  | cons a as => exact hlen a

theorem evenShares_map (hn : 0 < n) (hlen : ∀ a, (f a).length = len) (s : Sharing α n) :
    EvenShares (s.map f) := by
  intro share hshare
  rw [Vector.toList_map] at hshare
  obtain ⟨a, _, rfl⟩ := List.mem_map.1 hshare
  rw [hlen, leadLength_map hn hlen]

variable [XorGroup α]

theorem sumBytes_map (hf : ∀ a b, f (a ^^^ b) = xorBytes (f a) (f b))
    (hzeros : f XorGroup.zeros = List.replicate len 0) (as : List α) :
    sumBytes len (as.map f) = f (XorGroup.sum as) := by
  induction as with
  | nil => exact hzeros.symm
  | cons a as ih =>
    rw [List.map_cons, XorGroup.sum_cons, hf, ← ih]
    rfl

/-- Bytes that are taken of a value additively may be taken of each of its shares. -/
theorem joinShares_map (hn : 0 < n) (hlen : ∀ a, (f a).length = len)
    (hf : ∀ a b, f (a ^^^ b) = xorBytes (f a) (f b)) (s : Sharing α n) :
    joinShares (s.map f) = f (combine s) := by
  -- bytes of nothing are their own sum with themselves
  have hzeros : f XorGroup.zeros = List.replicate len 0 := by
    have hself := hf XorGroup.zeros XorGroup.zeros
    rw [XorGroup.xor_self, xorBytes_self, hlen] at hself
    exact hself
  unfold joinShares
  rw [leadLength_map hn hlen, Vector.toList_map, sumBytes_map hf hzeros]
  rfl

end shares

/-! ### The masked duplex -/

namespace MaskedDuplex

variable {k n : Nat}

theorem toList_xor (a b : Vector UInt8 k) : (a ^^^ b).toList = xorBytes a.toList b.toList :=
  Vector.toList_zipWith

theorem keyTail_xor (a b : Vector UInt8 k) :
    keyTail (a ^^^ b) = xorBytes (keyTail a) (keyTail b) := by
  unfold keyTail
  rw [toList_xor, xorBytes, List.drop_zipWith]
  rfl

/-- Adding the shares of a key's bytes adds the bytes of the shared key. -/
theorem agree_addKeyBytes (hn : 0 < n) {len : Nat} {f : Vector UInt8 k → Bytes}
    (hlen : ∀ a, (f a).length = len) (hf : ∀ a b, f (a ^^^ b) = xorBytes (f a) (f b))
    (x : MaskedState n) (key : MaskedKey k n) (offset : Nat) :
    Agree (fun y s => unmask y = s) (addShares x (key.map f) offset)
      ((unmask x).addBytes (f (combine key)) offset) := by
  rw [← joinShares_map hn hlen hf key]
  exact agree_addShares x (evenShares_map hn hlen key) offset

theorem agree_overwriteKey (hn : 0 < n) (x : MaskedState n) (key : MaskedKey k n)
    (offset : Nat) :
    Agree (fun y s => unmask y = s) ((overwriteShares key.parts offset).result x)
      ((unmask x).overwriteBytes (combine key).toList offset) := by
  have hlen : ∀ a : Vector UInt8 k, a.toList.length = k := fun _ => Vector.length_toList
  rw [← joinShares_map hn hlen toList_xor key]
  exact agree_overwriteShares x (evenShares_map hn hlen key) offset

/-- A masked duplex shares the state and the key of a plain one. -/
def Masks (d : MaskedDuplex k n) (e : PlainDuplex k) : Prop :=
  unmask d.state = e.state ∧ combine d.key = e.key

theorem agree_onState {d : MaskedDuplex k n} {e : PlainDuplex k} (hd : Masks d e)
    {f : MaskedState n → CheckedDraw (MaskedState n)} {g : State → Except Fault State}
    (h : Agree (fun y s => unmask y = s) (f d.state) (g e.state)) :
    Agree Masks (d.onState f) (e.onState g) :=
  agree_bind h fun _ _ hy => agree_pure ⟨hy, hd.2⟩

/-- A plain duplex encrypts bytes inside its state by adding them and reading what is there. -/
theorem encryptBytes_eq {data : Bytes} {offset : Nat} (h : offset + data.length ≤ stateBytes)
    (e : PlainDuplex k) :
    KeyedDuplex.encryptBytes data offset e = (do
      let e ← e.onState (·.addBytes data offset)
      return ((← e.state.extractBytes offset data.length).toList, e) : Except Fault _) := by
  simp only [KeyedDuplex.encryptBytes, PlainDuplex.onState, State.addExtract_of_le _ h,
    State.addBytes_of_le _ h]
  show _ = (State.extractBytes _ offset data.length >>= _)
  rw [State.extractBytes_of_le _ h]
  rfl

/-- A plain duplex decrypts bytes inside its state by reading what is there and replacing it. -/
theorem decryptBytes_eq {data : Bytes} {offset : Nat} (h : offset + data.length ≤ stateBytes)
    (e : PlainDuplex k) :
    KeyedDuplex.decryptBytes data offset e = (do
      let out ← e.state.extractAdd data data.length offset
      return (out, ← e.onState (·.overwriteBytes data offset)) : Except Fault _) := by
  simp only [KeyedDuplex.decryptBytes, PlainDuplex.onState, State.extractOverwrite_of_le _ h,
    State.extractAdd_of_le _ h, State.overwriteBytes_of_le _ h]
  rfl

/-- Masked and plain duplexes agree on everything that a mode asks of them. -/
theorem simulation_masks (hn : 0 < n) : Simulation k (Masks (k := k) (n := n)) where
  start {iv nonce d e} _ hd := by
    obtain ⟨s, key⟩ := e
    obtain ⟨rfl, rfl⟩ := hd
    apply agree_onState ⟨rfl, rfl⟩
    -- the three writes are compared one by one
    apply agree_bind (agree_overwriteBytes hn d.state iv 0)
    intro x s hx
    rw [← hx]
    apply agree_bind (agree_lift (agree_overwriteKey hn x d.key iv.length))
    intro y t hy
    rw [← hy]
    exact agree_overwriteBytes hn y nonce.toList nonceOffset
  permute {rounds d e} _ hd := by
    apply agree_onState hd
    rw [← hd.1]
    exact agree_permute hn d.state rounds
  addKey {offset d e} _ hd := by
    have hlen : ∀ a : Vector UInt8 k, a.toList.length = k := fun _ => Vector.length_toList
    apply agree_onState hd
    rw [← hd.1, ← hd.2]
    exact agree_lift (agree_addKeyBytes hn hlen toList_xor d.state d.key offset)
  addKeyTail {offset d e} _ hd := by
    apply agree_onState hd
    rw [← hd.1, ← hd.2]
    exact agree_lift (agree_addKeyBytes hn length_keyTail keyTail_xor d.state d.key offset)
  addBytes {data offset d e} _ hd := by
    apply agree_onState hd
    rw [← hd.1]
    exact agree_addBytes hn d.state data offset
  encryptBytes {data offset d e} h hd := by
    have hadd : Agree Masks (d.onState (·.addBytes data offset))
        (e.onState (·.addBytes data offset)) := by
      apply agree_onState hd
      rw [← hd.1]
      exact agree_addBytes hn d.state data offset
    rw [encryptBytes_eq h]
    apply agree_bind hadd
    intro d e hd
    have hread := agree_extractBytes d.state offset data.length
    rw [hd.1] at hread
    apply agree_bind (agree_lift hread)
    intro out _ hout
    rw [← hout]
    exact agree_pure ⟨rfl, hd⟩
  decryptBytes {data offset d e} h hd := by
    have hwrite : Agree Masks (d.onState (·.overwriteBytes data offset))
        (e.onState (·.overwriteBytes data offset)) := by
      apply agree_onState hd
      rw [← hd.1]
      exact agree_overwriteBytes hn d.state data offset
    have hread := agree_extractAdd d.state data data.length offset
    rw [hd.1] at hread
    rw [decryptBytes_eq h]
    apply agree_bind (agree_lift hread)
    intro out _ hout
    rw [← hout]
    exact agree_bind hwrite fun d e hd => agree_pure ⟨rfl, hd⟩
  extractBytes {offset len d e} _ hd := by
    have hread := agree_extractBytes d.state offset len
    rw [hd.1] at hread
    exact agree_lift hread

end MaskedDuplex

end Ascon
