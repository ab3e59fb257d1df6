import Ascon.Masking.State
import Ascon.Masking.Words
import Ascon.Proofs.State.Bytes

/-! # A window word by word is the window byte by byte

  What is said of the bytes of a state comes to the same as what is done to its
  words.

  - A word that is packed holds the bytes that belong into it, each in its lane. This
    is an induction on the data, in which every byte has a lane of its own.
  - The bits of a window are packed from bytes with all bits set. To take them away
    from a word is to set the bytes of the window in it to zero.
  - The words that a window touches are those in which it has a bit.
-/

namespace Ascon

/-! ### Lanes -/

namespace Lane

@[simp] theorem get_zero (k : Nat) : get 0 k = 0 := by simp [get]

theorem get_not (w : UInt64) {k : Nat} (hk : k < 8) : get (~~~w) k = ~~~get w k := by
  apply UInt8.toBitVec_inj.1
  apply BitVec.eq_of_getElem_eq
  intro i hi
  rw [getElem_get _ hk i hi, UInt64.toBitVec_not, BitVec.getElem_not, UInt8.toBitVec_not,
    BitVec.getElem_not, getElem_get _ hk i hi]

/-- A byte that is moved up to a lane is there, and the other lanes are empty. -/
theorem get_shiftLeft (b : UInt8) {j k : Nat} (hj : j < 8) (hk : k < 8) :
    get (b.toUInt64 <<< shift k) j = if j = k then b else 0 := by
  have hadd := get_add 0 b hj hk
  rwa [add, UInt64.zero_xor, get_zero, UInt8.zero_xor] at hadd

/-- The lanes of word `w` are the positions in it. -/
theorem ext_of_position {u v : UInt64} (w : Nat)
    (h : ∀ q, q / 8 = w → get u (q % 8) = get v (q % 8)) : u = v := by
  apply Lane.ext
  intro k hk
  have hlane := h (8 * w + k) (by omega)
  rwa [show (8 * w + k) % 8 = k by omega] at hlane

end Lane

namespace Masking

/-! ### Packing -/

theorem foldl_or {α : Type} (f : α → UInt64) (acc : UInt64) (as : List α) :
    as.foldl (fun acc a => acc ||| f a) acc = acc ||| as.foldl (fun acc a => acc ||| f a) 0 := by
  induction as generalizing acc with
  | nil => simp
  | cons a as ih =>
    rw [List.foldl_cons, List.foldl_cons, ih, ih (0 ||| f a), UInt64.zero_or, UInt64.or_assoc]

@[simp] theorem pack_nil (p w : Nat) : pack [] p w = 0 := rfl

theorem pack_cons (b : UInt8) (data : Bytes) (p w : Nat) :
    pack (b :: data) p w =
      (if p / 8 = w then b.toUInt64 <<< Lane.shift (p % 8) else 0) ||| pack data (p + 1) w := by
  unfold pack
  rw [List.zipIdx_cons, List.filter_cons]
  split
  · next h =>
    rw [List.foldl_cons, foldl_or, if_pos (of_decide_eq_true h), UInt64.zero_or]
  · next h =>
    rw [if_neg fun hw => h (decide_eq_true hw), UInt64.zero_or]

/-- The bits of a window are packed from bytes with all bits set. -/
theorem lanes_eq_pack (p len w : Nat) : lanes p len w = pack (List.replicate len 0xff) p w := by
  induction len generalizing p with
  | zero => rfl
  | succ len ih =>
    rw [List.replicate_succ, pack_cons, ← ih]
    unfold lanes
    rw [List.range'_succ, List.filter_cons]
    split
    · next h =>
      rw [List.foldl_cons, foldl_or, if_pos (of_decide_eq_true h), UInt64.zero_or]
      rfl
    · next h =>
      rw [if_neg fun hw => h (decide_eq_true hw), UInt64.zero_or]

/-- Packed bytes are where they belong. -/
theorem get_pack (data : Bytes) (p q : Nat) :
    Lane.get (pack data p (q / 8)) (q % 8) = if p ≤ q then data.getD (q - p) 0 else 0 := by
  have hlane : ∀ q, q % 8 < 8 := fun q => Nat.mod_lt _ (by decide)
  induction data generalizing p with
  | nil => simp
  | cons b data ih =>
    -- the first byte is in its lane, and in no other one of any word
    have hfirst : Lane.get (if p / 8 = q / 8 then b.toUInt64 <<< Lane.shift (p % 8) else 0) (q % 8) =
        if q = p then b else 0 := by
      by_cases hw : p / 8 = q / 8
      · have hq : q % 8 = p % 8 ↔ q = p := by omega
        simp only [if_pos hw, Lane.get_shiftLeft b (hlane q) (hlane p), hq]
      · rw [if_neg hw, if_neg fun h => hw (by rw [h]), Lane.get_zero]
    rw [pack_cons, Lane.get_or _ _ (hlane q), ih, hfirst]
    rcases Nat.lt_trichotomy q p with hq | rfl | hq
    · simp [show ¬q = p by omega, show ¬p + 1 ≤ q by omega, show ¬p ≤ q by omega]
    · simp [show ¬q + 1 ≤ q by omega]
    · obtain ⟨k, hk⟩ : ∃ k, q - p = k + 1 := ⟨q - p - 1, by omega⟩
      simp [show ¬q = p by omega, show p + 1 ≤ q by omega, show p ≤ q by omega,
        show q - (p + 1) = k by omega, hk]

theorem get_lanes (p len q : Nat) :
    Lane.get (lanes p len (q / 8)) (q % 8) = if p ≤ q ∧ q < p + len then 0xff else 0 := by
  rw [lanes_eq_pack, get_pack]
  by_cases hle : p ≤ q
  · by_cases hlt : q < p + len
    · have hidx : q - p < len := by omega
      simp [hle, hlt, hidx]
    · have hidx : ¬q - p < len := by omega
      simp [hle, hlt, hidx]
  · simp [hle]

end Masking

/-! ### Words of a state -/

namespace State

open Masking

/-- Words are equal if they hold the same bytes. -/
theorem word_eq_of_byte {s : State} {v : UInt64} {w : Nat}
    (h : ∀ q, q / 8 = w → s.byte q = Lane.get v (q % 8)) : s.word w = v := by
  apply Lane.ext_of_position w
  rintro q rfl
  exact h q rfl

/-- A word is empty if all of its bytes are. -/
theorem word_eq_zero_iff (s : State) (w : Nat) :
    s.word w = 0 ↔ ∀ p, p / 8 = w → s.byte p = 0 := by
  constructor
  · rintro hw p rfl
    rw [byte, hw, Lane.get_zero]
  · intro h
    apply word_eq_of_byte
    intro p hp
    rw [h p hp, Lane.get_zero]

/-- The words of a state that holds nothing but some data are packed from them. -/
theorem word_zero_addFrom {data : Bytes} {p : Nat} (h : p + data.length ≤ 40) (w : Nat) :
    (zero.addFrom p data).word w = pack data p w := by
  apply word_eq_of_byte
  rintro q rfl
  rw [byte_addFrom zero data h, byte_zero, UInt8.zero_xor, get_pack]

/-- To set bytes to zero is to take the bits of the window away from every word. -/
theorem word_erase (s : State) {p len : Nat} (h : p + len ≤ 40) (w : Nat) :
    (s.setFrom p (List.replicate len 0)).word w = s.word w &&& ~~~lanes p len w := by
  have hfits : p + (List.replicate len (0 : UInt8)).length ≤ 40 := by simpa using h
  apply word_eq_of_byte
  rintro q rfl
  have hlane : q % 8 < 8 := Nat.mod_lt _ (by decide)
  rw [byte_setFrom s _ hfits, List.length_replicate, Lane.get_and _ _ hlane, Lane.get_not _ hlane,
    get_lanes]
  split
  · next hq =>
    have hlt : q - p < len := by omega
    rw [show ~~~(0xff : UInt8) = 0 from rfl, UInt8.and_zero]
    simp [hlt]
  · simp [byte]

end State

namespace Masking

/-! ### The words that a window touches -/

variable {offset len : Nat}

theorem byte_windowLanes (h : offset + len ≤ 40) (p : Nat) :
    (windowLanes offset len).byte p = if offset ≤ p ∧ p < offset + len then 0xff else 0 := by
  have hfits : offset + (List.replicate len (0xff : UInt8)).length ≤ 40 := by simpa using h
  rw [windowLanes, State.byte_setFrom _ _ hfits, List.length_replicate, State.byte_zero]
  split
  · next hp =>
    have hlt : p - offset < len := by omega
    simp [hlt]
  · rfl

/-- The state that has the bits of a window has those of each word. -/
theorem word_windowLanes (h : offset + len ≤ 40) (w : Nat) :
    (windowLanes offset len).word w = lanes offset len w := by
  apply State.word_eq_of_byte
  rintro q rfl
  rw [byte_windowLanes h, get_lanes]

/-- The words with a bit of the window are those between its ends. -/
theorem word_windowLanes_eq_zero_iff (h : offset + len ≤ 40) (hlen : 0 < len) (w : Nat) :
    (windowLanes offset len).word w = 0 ↔
      ¬(offset / 8 ≤ w ∧ w < (offset + len - 1) / 8 + 1) := by
  rw [State.word_eq_zero_iff]
  constructor
  · rintro hzero ⟨hfirst, hlast⟩
    -- the first byte of the window in this word
    have hbyte := hzero (max offset (8 * w)) (by omega)
    rw [byte_windowLanes h, if_pos (by omega)] at hbyte
    exact absurd hbyte (by decide)
  · intro hoff p hp
    rw [byte_windowLanes h, if_neg (by omega)]

/-- Five words are few enough to go through. -/
theorem range'_eq_filter : ∀ a < 6, ∀ b < 6,
    List.range' a (b - a) = (List.range 5).filter fun w => decide (a ≤ w ∧ w < b) := by
  decide

/-- A window touches the words of the state in which it has a bit, and goes through them in order. -/
theorem touched_eq_filter (h : offset + len ≤ 40) :
    touched offset len = (List.range 5).filter fun w => lanes offset len w ≠ 0 := by
  unfold touched touchedWords
  split
  · next hlen =>
    subst hlen
    rfl
  · next hlen =>
    have hpos : 0 < len := Nat.pos_of_ne_zero hlen
    rw [range'_eq_filter _ (by omega) _ (by omega)]
    apply List.filter_congr
    intro w _
    rw [decide_eq_decide, ← word_windowLanes h, ne_eq, word_windowLanes_eq_zero_iff h hpos,
      Decidable.not_not]

/-- No byte of some data falls beside the bits that they cover. -/
theorem pack_and_lanes (data : Bytes) (p w : Nat) :
    pack data p w &&& lanes p data.length w = pack data p w := by
  apply Lane.ext_of_position w
  rintro q rfl
  rw [Lane.get_and _ _ (Nat.mod_lt _ (by decide)), get_pack, get_lanes]
  by_cases hle : p ≤ q
  · by_cases hlt : q < p + data.length
    · rw [if_pos hle, if_pos ⟨hle, hlt⟩, show (0xff : UInt8) = -1 from rfl, UInt8.and_neg_one]
    · have hidx : data.length ≤ q - p := by omega
      simp [hle, hlt, hidx]
  · simp [hle]

/-! ### States that are put together from words -/

section assemble

variable {n : Nat} (w0 w1 w2 w3 w4 : Vector UInt64 n)

theorem map_x0_assemble : (assemble w0 w1 w2 w3 w4).map State.x0 = w0 := by
  ext i hi
  simp [assemble, Vector.get]

theorem map_x1_assemble : (assemble w0 w1 w2 w3 w4).map State.x1 = w1 := by
  ext i hi
  simp [assemble, Vector.get]

theorem map_x2_assemble : (assemble w0 w1 w2 w3 w4).map State.x2 = w2 := by
  ext i hi
  simp [assemble, Vector.get]

theorem map_x3_assemble : (assemble w0 w1 w2 w3 w4).map State.x3 = w3 := by
  ext i hi
  simp [assemble, Vector.get]

theorem map_x4_assemble : (assemble w0 w1 w2 w3 w4).map State.x4 = w4 := by
  ext i hi
  simp [assemble, Vector.get]

end assemble

end Masking

end Ascon
