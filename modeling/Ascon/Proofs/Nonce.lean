import Ascon.Nonce
import Mathlib.Data.Nat.Digits.Lemmas

/-! # Nonces as numbers

  A nonce is the big-endian form of a number below 2¹²⁸, and to increment the
  nonce is to add one to the number, up to this bound.

  - The carry is added up in sixteen bits. It is at most one wherever it comes
    from, so that its sum with a byte fits (`carry_le_one`, `toNat_sum`).
  - `addOne_value` says of every byte string that nothing is lost on the way: the
    new string and the carry out of its first byte make up the old number and one.
  - From there on it is counting. A nonce does not come back before all others
    have been used.
-/

namespace Ascon

/-! ### Big-endian numbers -/

/-- The number whose big-endian form the bytes are. -/
def bigEndianNat (bytes : Bytes) : Nat := Nat.ofDigits 256 (bytes.reverse.map UInt8.toNat)

theorem bigEndianNat_append (a b : Bytes) :
    bigEndianNat (a ++ b) = bigEndianNat b + 256 ^ b.length * bigEndianNat a := by
  unfold bigEndianNat
  rw [List.reverse_append, List.map_append, Nat.ofDigits_append, List.length_map,
    List.length_reverse]

theorem bigEndianNat_cons (b : UInt8) (bytes : Bytes) :
    bigEndianNat (b :: bytes) = bigEndianNat bytes + 256 ^ bytes.length * b.toNat := by
  have hsingle : bigEndianNat [b] = b.toNat := Nat.ofDigits_singleton
  rw [← hsingle, ← bigEndianNat_append, List.singleton_append]

theorem bigEndianNat_lt (bytes : Bytes) : bigEndianNat bytes < 256 ^ bytes.length := by
  have hdigits : ∀ d ∈ bytes.reverse.map UInt8.toNat, d < 256 := by
    intro d hd
    obtain ⟨b, -, rfl⟩ := List.mem_map.1 hd
    exact b.toNat_lt
  have hlt := Nat.ofDigits_lt_base_pow_length (by decide) hdigits
  rwa [List.length_map, List.length_reverse] at hlt

/-- A lane of a word is one of its digits to the base 256. -/
theorem Lane.toNat_get (w : UInt64) {m : Nat} (hm : m < 8) :
    (Lane.get w (7 - m)).toNat = w.toNat / 256 ^ m % 256 := by
  have hlt : 7 - m < 8 := by omega
  have hshift : 56 - 8 * (7 - m) = 8 * m := by omega
  rw [Lane.get, UInt64.toNat_toUInt8, UInt64.toNat_shiftRight, Lane.toNat_shift_mod hlt, hshift,
    Nat.shiftRight_eq_div_pow, Nat.pow_mul]

/-- The last bytes of a word are the big-endian form of what the word leaves when it is divided by
    as high a power of 256. -/
theorem bigEndianNat_drop_bigEndian64 (w : UInt64) {m : Nat} (hm : m ≤ 8) :
    bigEndianNat ((bigEndian64 w).toList.drop (8 - m)) = w.toNat % 256 ^ m := by
  induction m with
  | zero =>
    rw [List.drop_of_length_le (by simp), Nat.pow_zero, Nat.mod_one]
    rfl
  | succ m ih =>
    have hlength : (bigEndian64 w).toList.length = 8 := Vector.length_toList
    have hlt : 8 - (m + 1) < (bigEndian64 w).toList.length := by omega
    have hlane : (bigEndian64 w).toList[8 - (m + 1)] = Lane.get w (7 - m) := by
      simp [bigEndian64]
    have hrest : (bigEndian64 w).toList.drop (8 - (m + 1) + 1) =
        (bigEndian64 w).toList.drop (8 - m) := by
      congr 1
      omega
    have hcount : ((bigEndian64 w).toList.drop (8 - m)).length = m := by
      rw [List.length_drop]
      omega
    rw [List.drop_eq_getElem_cons hlt, hrest, bigEndianNat_cons, ih (by omega), hcount, hlane,
      Lane.toNat_get w hm, Nat.mod_pow_succ]

/-- The bytes of a word are the big-endian form of its number. -/
theorem bigEndianNat_bigEndian64 (w : UInt64) : bigEndianNat (bigEndian64 w).toList = w.toNat := by
  have hdrop := bigEndianNat_drop_bigEndian64 w (Nat.le_refl 8)
  have hlt : w.toNat < 256 ^ 8 := w.toNat_lt
  rwa [Nat.sub_self, List.drop_zero, Nat.mod_eq_of_lt hlt] at hdrop

namespace Nonce

/-! ### The carry -/

/-- A carry and a byte fit into sixteen bits. -/
theorem toNat_sum {carry : UInt16} (h : carry.toNat ≤ 1) (b : UInt8) :
    (carry + b.toUInt16).toNat = carry.toNat + b.toNat := by
  have hb := b.toNat_lt
  rw [UInt16.toNat_add, UInt8.toNat_toUInt16]
  exact Nat.mod_eq_of_lt (by omega)

/-- What is put in the place of a byte, and what is carried on from it. -/
theorem addOne_cons {b : UInt8} {rest : Bytes} (h : (addOne rest).2.toNat ≤ 1) :
    ∃ digit carry, addOne (b :: rest) = (digit :: (addOne rest).1, carry) ∧
      digit.toNat = ((addOne rest).2.toNat + b.toNat) % 256 ∧
      carry.toNat = ((addOne rest).2.toNat + b.toNat) / 256 := by
  have hsum := toNat_sum h b
  refine ⟨_, _, rfl, ?_, ?_⟩
  · rw [UInt16.toNat_toUInt8, hsum]
  · rw [UInt16.toNat_shiftRight, hsum]
    exact Nat.shiftRight_eq_div_pow _ 8

/-- No more than one is ever carried. -/
theorem carry_le_one (bytes : Bytes) : (addOne bytes).2.toNat ≤ 1 := by
  induction bytes with
  | nil => exact Nat.le_refl 1
  | cons b rest ih =>
    have hb := b.toNat_lt
    obtain ⟨digit, carry, hadd, -, hcarry⟩ := addOne_cons (b := b) ih
    rw [hadd, hcarry]
    omega

/-- The new bytes and the carry make up the number of the old ones and one. -/
theorem addOne_value (bytes : Bytes) :
    bigEndianNat (addOne bytes).1 + 256 ^ bytes.length * (addOne bytes).2.toNat =
      bigEndianNat bytes + 1 := by
  induction bytes with
  | nil => rfl
  | cons b rest ih =>
    obtain ⟨digit, carry, hadd, hdigit, hcarry⟩ := addOne_cons (b := b) (carry_le_one rest)
    have hsplit := Nat.mod_add_div ((addOne rest).2.toNat + b.toNat) 256
    rw [hadd, bigEndianNat_cons, bigEndianNat_cons, length_addOne, hdigit, hcarry,
      List.length_cons, Nat.pow_succ]
    calc _ = bigEndianNat (addOne rest).1 + 256 ^ rest.length *
          (((addOne rest).2.toNat + b.toNat) % 256 +
            256 * (((addOne rest).2.toNat + b.toNat) / 256)) := by ring
      _ = bigEndianNat (addOne rest).1 + 256 ^ rest.length * (addOne rest).2.toNat +
          256 ^ rest.length * b.toNat := by rw [hsplit]; ring
      _ = bigEndianNat rest + 256 ^ rest.length * b.toNat + 1 := by rw [ih]; ring

/-! ### Counting -/

/-- The number that a nonce stands for. -/
def toNat (n : Nonce) : Nat := bigEndianNat n.toList

/-- The carry that comes to byte `i` from the bytes behind it. -/
def carryInto (n : Nonce) (i : Fin nonceBytes) : UInt16 := (addOne (n.toList.drop (i + 1))).2

theorem toNat_lt (n : Nonce) : n.toNat < 2 ^ 128 := by
  have hlt := bigEndianNat_lt n.toList
  rwa [Vector.length_toList] at hlt

theorem toNat_increment (n : Nonce) : n.increment.toNat = (n.toNat + 1) % 2 ^ 128 := by
  have hvalue := addOne_value n.toList
  have hlt := n.increment.toNat_lt
  have hpow : 256 ^ n.toList.length = 2 ^ 128 := by rw [Vector.length_toList]; rfl
  have hnew : bigEndianNat (addOne n.toList).1 = n.increment.toNat := rfl
  rw [hpow, hnew] at hvalue
  -- the carry counts whole turns of the counter
  show _ = (bigEndianNat n.toList + 1) % 2 ^ 128
  rw [← hvalue, Nat.add_mul_mod_self_left, Nat.mod_eq_of_lt hlt]

theorem toNat_increments (n : Nonce) (t : Nat) :
    (n.apply (.increment t)).toNat = (n.toNat + t) % 2 ^ 128 := by
  induction t with
  | zero => exact (Nat.mod_eq_of_lt n.toNat_lt).symm
  | succ t ih =>
    show (increment (n.apply (.increment t))).toNat = _
    rw [toNat_increment, ih, Nat.mod_add_mod, Nat.add_assoc]

theorem toNat_ofCounter (k : UInt64) : (ofCounter k).toNat = k.toNat := by
  let high : Vector UInt8 8 := Vector.replicate 8 0
  have hzeros : bigEndianNat high.toList = 0 := by decide
  have hbytes : (ofCounter k).toList = high.toList ++ (bigEndian64 k).toList :=
    Vector.toList_append
  rw [toNat, hbytes, bigEndianNat_append, hzeros, Nat.mul_zero, Nat.add_zero,
    bigEndianNat_bigEndian64]

/-- Increments add up modulo 2¹²⁸, whatever the nonce is, and the carry never leaves its sixteen
    bits. A counter that is set to a number goes on from there, whatever the nonce was before. No
    nonce comes up twice within fewer than 2¹²⁸ increments. -/
theorem counts_modulo (n : Nonce) :
    (∀ t, (n.apply (.increment t)).toNat = (n.toNat + t) % 2 ^ 128) ∧
    (∀ t i, (carryInto (n.apply (.increment t)) i).toNat +
      ((n.apply (.increment t)).get i).toNat < 2 ^ 16) ∧
    (∀ k, (n.apply (.setCounter k)).toNat = k.toNat ∧
      ∀ t, ((n.apply (.setCounter k)).apply (.increment t)).toNat = (k.toNat + t) % 2 ^ 128) ∧
    ∀ s t, s < t → t < 2 ^ 128 → n.apply (.increment s) ≠ n.apply (.increment t) := by
  refine ⟨n.toNat_increments, fun t i => ?_, fun k => ⟨toNat_ofCounter k, fun t => ?_⟩, ?_⟩
  · have hcarry : (carryInto (n.apply (.increment t)) i).toNat ≤ 1 := carry_le_one _
    have hbyte := ((n.apply (.increment t)).get i).toNat_lt
    omega
  · rw [toNat_increments]
    show ((ofCounter k).toNat + t) % _ = _
    rw [toNat_ofCounter]
  · intro s t hst ht heq
    have hvalues := congrArg toNat heq
    rw [toNat_increments, toNat_increments] at hvalues
    omega

/-- The last nonce is followed by the first one, which is another nonce. -/
theorem counts_modulo_last_nonce :
    let n : Nonce := Vector.replicate nonceBytes 0xff
    (0 < 1 ∧ 1 < 2 ^ 128) ∧ n.apply (.increment 0) ≠ n.apply (.increment 1) ∧
      (n.apply (.increment 1)).toNat = 0 := by
  intro n
  have hlast : (n.toNat + 1) % 2 ^ 128 = 0 := by decide
  obtain ⟨hcount, -, -, hapart⟩ := counts_modulo n
  exact ⟨by decide, hapart 0 1 (by decide) (by decide), (hcount 1).trans hlast⟩

end Nonce

end Ascon
