import Ascon.State.Window

/-! # Bytes of a state under exclusive or

  Writing into a state and reading from it, as far as the modes of operation
  rely on it.

  - Adding bytes to a state is the same as adding the state that holds nothing
    but these bytes. So it is additive, and so are reading and erasing.
  - To add bytes is to replace what was there by the sum, and the sum is what
    one then reads. This is why encrypting and decrypting a block leave the
    same state behind.
  - Forty bytes written from the start on replace the whole state.
-/

namespace Ascon

/-! ### Lanes -/

/-- What an operation does bit by bit, it does lane by lane. -/
theorem Lane.get_bitwise {f : UInt64 → UInt64 → UInt64} {g : UInt8 → UInt8 → UInt8}
    {bit : Bool → Bool → Bool}
    (hf : ∀ v w i (hi : i < 64), (f v w).toBitVec[i] = bit v.toBitVec[i] w.toBitVec[i])
    (hg : ∀ a b i (hi : i < 8), (g a b).toBitVec[i] = bit a.toBitVec[i] b.toBitVec[i])
    (v w : UInt64) {k : Nat} (hk : k < 8) :
    Lane.get (f v w) k = g (Lane.get v k) (Lane.get w k) := by
  apply UInt8.toBitVec_inj.1
  apply BitVec.eq_of_getElem_eq
  intro i hi
  rw [Lane.getElem_get _ hk i hi, hf, hg, Lane.getElem_get _ hk i hi, Lane.getElem_get _ hk i hi]

theorem Lane.get_xor (v w : UInt64) {k : Nat} (hk : k < 8) :
    Lane.get (v ^^^ w) k = Lane.get v k ^^^ Lane.get w k :=
  Lane.get_bitwise (fun _ _ _ hi => BitVec.getElem_xor hi) (fun _ _ _ hi => BitVec.getElem_xor hi)
    v w hk

theorem Lane.get_and (v w : UInt64) {k : Nat} (hk : k < 8) :
    Lane.get (v &&& w) k = Lane.get v k &&& Lane.get w k :=
  Lane.get_bitwise (fun _ _ _ hi => BitVec.getElem_and hi) (fun _ _ _ hi => BitVec.getElem_and hi)
    v w hk

theorem Lane.get_or (v w : UInt64) {k : Nat} (hk : k < 8) :
    Lane.get (v ||| w) k = Lane.get v k ||| Lane.get w k :=
  Lane.get_bitwise (fun _ _ _ hi => BitVec.getElem_or hi) (fun _ _ _ hi => BitVec.getElem_or hi)
    v w hk

/-! ### Byte strings -/

theorem getD_xorBytes {a b : Bytes} (h : a.length = b.length) (i : Nat) :
    (xorBytes a b).getD i 0 = a.getD i 0 ^^^ b.getD i 0 := by
  unfold xorBytes
  rw [List.getD_eq_getElem?_getD, List.getElem?_zipWith]
  by_cases hi : i < a.length
  · have hb : i < b.length := by omega
    simp [hi, hb]
  -- past the end both strings read as zero
  · have ha : a.length ≤ i := by omega
    have hb : b.length ≤ i := by omega
    simp [ha, hb]

/-- Combining twice with the same bytes changes nothing. -/
theorem xorBytes_cancel {a b : Bytes} (h : a.length = b.length) :
    xorBytes a (xorBytes a b) = b := by
  apply List.ext_getElem
  · simp [h]
  · intro i _ _
    simp only [xorBytes, List.getElem_zipWith, XorGroup.cancel_left]

theorem xorBytes_self (a : Bytes) : xorBytes a a = List.replicate a.length 0 := by
  apply List.ext_getElem
  · simp
  · intro i _ _
    simp [xorBytes]

namespace State

/-! ### Reading -/

@[simp] theorem byte_xor (s t : State) (p : Nat) : (s ^^^ t).byte p = s.byte p ^^^ t.byte p := by
  unfold byte
  rw [word_xor, Lane.get_xor _ _ (Nat.mod_lt _ (by decide))]

@[simp] theorem byte_zero (p : Nat) : zero.byte p = 0 := by
  have h := byte_xor zero zero p
  rw [XorGroup.cancel_self (zero.byte p)] at h
  exact h

theorem getD_slice (s : State) (p len i : Nat) :
    (s.slice p len).toList.getD i 0 = if i < len then s.byte (p + i) else 0 := by
  by_cases hi : i < len
  · simp [slice, hi]
  · simp [slice, hi]

/-! ### Adding -/

/-- Bytes are added to a state by adding the state that holds them. -/
theorem addFrom_eq_xor (s : State) {data : Bytes} {p : Nat} (h : p + data.length ≤ 40) :
    s.addFrom p data = s ^^^ zero.addFrom p data := by
  apply ext_byte
  intro q _
  rw [byte_xor, byte_addFrom s data h, byte_addFrom zero data h, byte_zero, UInt8.zero_xor]

/-- Adding a sum of byte strings is adding one after the other. -/
theorem addFrom_xorBytes {a b : Bytes} {p : Nat} (hlen : a.length = b.length)
    (h : p + a.length ≤ 40) :
    zero.addFrom p (xorBytes a b) = zero.addFrom p a ^^^ zero.addFrom p b := by
  have hb : p + b.length ≤ 40 := by omega
  have hab : p + (xorBytes a b).length ≤ 40 := by simp [← hlen, h]
  apply ext_byte
  intro q _
  rw [byte_xor, byte_addFrom zero a h, byte_addFrom zero b hb, byte_addFrom zero _ hab,
    getD_xorBytes hlen]
  by_cases hq : p ≤ q
  · simp [hq]
  · simp [hq]

theorem addFrom_append (s : State) (p : Nat) (a b : Bytes) :
    s.addFrom p (a ++ b) = (s.addFrom p a).addFrom (p + a.length) b := by
  induction a generalizing s p with
  | nil => simp [addFrom]
  | cons x a ih =>
    rw [List.cons_append, addFrom, ih, addFrom, List.length_cons, Nat.add_right_comm, Nat.add_assoc]

/-- Zeros may be added anywhere. -/
theorem addFrom_zeros (s : State) {p len : Nat} (h : p + len ≤ 40) :
    s.addFrom p (List.replicate len 0) = s := by
  have hlen : p + (List.replicate len (0 : UInt8)).length ≤ 40 := by simpa using h
  apply ext_byte
  intro q _
  have hzero : (List.replicate len (0 : UInt8)).getD (q - p) 0 = 0 := by
    by_cases hq : q - p < len
    · simp [hq]
    · simp [hq]
  rw [byte_addFrom s _ hlen, hzero, ite_self, UInt8.xor_zero]

theorem length_xorBytes_slice (s : State) (p : Nat) (data : Bytes) :
    (xorBytes (s.slice p data.length).toList data).length = data.length := by
  rw [length_xorBytes, Vector.length_toList, Nat.min_self]

/-- To add bytes is to put the sum in place of what was there. -/
theorem addFrom_eq_setFrom (s : State) {data : Bytes} {p : Nat} (h : p + data.length ≤ 40) :
    s.addFrom p data = s.setFrom p (xorBytes (s.slice p data.length).toList data) := by
  have hlen : (s.slice p data.length).toList.length = data.length := by simp
  have hsum : p + (xorBytes (s.slice p data.length).toList data).length ≤ 40 := by
    rw [length_xorBytes_slice]
    exact h
  apply ext_byte
  intro q _
  rw [byte_addFrom s data h, byte_setFrom s _ hsum, getD_xorBytes hlen, getD_slice,
    length_xorBytes, hlen, Nat.min_self]
  -- a byte in front of the window, inside it, or behind it
  by_cases hq : p ≤ q
  · by_cases hlt : q < p + data.length
    · simp [hq, hlt, show q - p < data.length by omega, show p + (q - p) = q by omega]
    · have hge : data.length ≤ q - p := by omega
      simp [hq, hlt, List.getElem?_eq_none hge]
  · simp [hq]

/-- What one reads in front of the bytes that are added is what was there before. -/
theorem slice_addFrom_of_le (s : State) {data : Bytes} {p q len : Nat}
    (h : p + data.length ≤ 40) (hq : q + len ≤ p) :
    (s.addFrom p data).slice q len = s.slice q len := by
  apply Vector.ext
  intro i hi
  have hfront : ¬p ≤ q + i := by omega
  simp [slice, byte_addFrom s data h, hfront]

/-- What one reads where bytes have been written is what was written. -/
theorem slice_setFrom (s : State) {data : Bytes} {p : Nat} (h : p + data.length ≤ 40) :
    ((s.setFrom p data).slice p data.length).toList = data := by
  apply List.ext_getElem
  · simp
  · intro i _ _
    simp [slice, byte_setFrom s data h]

/-- What one reads where bytes have been added is the sum. -/
theorem slice_addFrom (s : State) {data : Bytes} {p : Nat} (h : p + data.length ≤ 40) :
    ((s.addFrom p data).slice p data.length).toList =
      xorBytes (s.slice p data.length).toList data := by
  have hsum : p + (xorBytes (s.slice p data.length).toList data).length ≤ 40 := by
    rw [length_xorBytes_slice]
    exact h
  have hread := slice_setFrom s hsum
  rw [length_xorBytes_slice] at hread
  rw [addFrom_eq_setFrom s h, hread]

/-- To add the sum of what was there and of some bytes is to put these bytes in its place. -/
theorem addFrom_xorBytes_slice (s : State) {data : Bytes} {p : Nat} (h : p + data.length ≤ 40) :
    s.addFrom p (xorBytes (s.slice p data.length).toList data) = s.setFrom p data := by
  have hshown : (s.slice p data.length).toList.length = data.length := Vector.length_toList
  have hsum : p + (xorBytes (s.slice p data.length).toList data).length ≤ 40 := by
    rw [length_xorBytes_slice]
    exact h
  rw [addFrom_eq_setFrom s hsum, length_xorBytes_slice, xorBytes_cancel hshown]

/-! ### Replacing -/

/-- To erase bytes is additive. -/
theorem erase_xor (s t : State) {p len : Nat} (h : p + len ≤ 40) :
    (s ^^^ t).setFrom p (List.replicate len 0) =
      s.setFrom p (List.replicate len 0) ^^^ t.setFrom p (List.replicate len 0) := by
  have hlen : p + (List.replicate len (0 : UInt8)).length ≤ 40 := by simpa using h
  apply ext_byte
  intro q _
  rw [byte_xor, byte_setFrom _ _ hlen, byte_setFrom _ _ hlen, byte_setFrom _ _ hlen]
  split
  · next hq =>
    have hlt : q - p < len := by
      rw [List.length_replicate] at hq
      omega
    simp [hlt]
  · exact byte_xor s t q

/-- To replace bytes is to erase what was there and to add the new ones. -/
theorem setFrom_eq_addFrom_erase (s : State) {data : Bytes} {p : Nat}
    (h : p + data.length ≤ 40) :
    s.setFrom p data = (s.setFrom p (List.replicate data.length 0)).addFrom p data := by
  have hlen : p + (List.replicate data.length (0 : UInt8)).length ≤ 40 := by simpa using h
  apply ext_byte
  intro q _
  rw [byte_setFrom s data h, byte_addFrom _ data h, byte_setFrom s _ hlen, List.length_replicate]
  by_cases hq : p ≤ q
  · by_cases hlt : q < p + data.length
    · simp [hq, hlt, show q - p < data.length by omega]
    · have hge : data.length ≤ q - p := by omega
      simp [hq, hlt, List.getElem?_eq_none hge]
  · simp [hq]

theorem setFrom_append (s : State) (p : Nat) (a b : Bytes) :
    s.setFrom p (a ++ b) = (s.setFrom p a).setFrom (p + a.length) b := by
  induction a generalizing s p with
  | nil => simp [setFrom]
  | cons x a ih =>
    rw [List.cons_append, setFrom, ih, setFrom, List.length_cons, Nat.add_right_comm, Nat.add_assoc]

/-- Forty bytes leave nothing of the state that was there. -/
theorem setFrom_full (s t : State) {data : Bytes} (h : data.length = 40) :
    s.setFrom 0 data = t.setFrom 0 data := by
  apply ext_byte
  intro q hq
  rw [byte_setFrom s data (by omega), byte_setFrom t data (by omega), if_pos (by omega),
    if_pos (by omega)]

end State

end Ascon
