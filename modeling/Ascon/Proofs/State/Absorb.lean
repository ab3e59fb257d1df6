import Ascon.Permutation
import Ascon.Proofs.State.Bytes

/-! # Adding whole states

  A definition on paper adds forty bytes to a state where a mode of operation
  adds a few bytes at an offset. `State.holding` is the state that stands for
  these few bytes, and adding it comes to the same.
-/

namespace Ascon.State

/-- The state with `data` at `offset`, and zeros everywhere else. -/
def holding (offset : Nat) (data : Bytes) : State := zero.setFrom offset data

theorem byte_holding {data : Bytes} (h : data.length ≤ 40) (q : Nat) :
    (holding 0 data).byte q = if q < data.length then data.getD q 0 else 0 := by
  have hfits : 0 + data.length ≤ 40 := by omega
  have hin : (0 ≤ q ∧ q < 0 + data.length) ↔ q < data.length := by omega
  simp only [holding, byte_setFrom zero data hfits, hin, Nat.sub_zero, byte_zero]

/-- To add the state that holds some bytes is to add these bytes. -/
theorem xor_holding (s : State) {data : Bytes} {offset : Nat} (h : offset + data.length ≤ 40) :
    s ^^^ holding offset data = s.addFrom offset data := by
  apply ext_byte
  intro q _
  rw [byte_xor, holding, byte_setFrom zero data h, byte_addFrom s data h, byte_zero]
  by_cases hq : offset ≤ q
  · by_cases hlt : q < offset + data.length
    · simp [hq, hlt]
    · have hge : data.length ≤ q - offset := by omega
      simp [hq, hlt, List.getElem?_eq_none hge]
  · simp [hq]

@[simp] theorem xor_holding_nil (s : State) (offset : Nat) : s ^^^ holding offset [] = s :=
  XorGroup.xor_zeros s

/-- Bytes behind other bytes may be added afterwards. -/
theorem xor_holding_append (s : State) {a b : Bytes} (h : a.length + b.length ≤ 40) :
    s ^^^ holding 0 (a ++ b) = (s ^^^ holding 0 a).addFrom a.length b := by
  have ha : 0 + a.length ≤ 40 := by omega
  have hab : 0 + (a ++ b).length ≤ 40 := by
    rw [List.length_append]
    omega
  rw [xor_holding s ha, xor_holding s hab, addFrom_append, Nat.zero_add]

/-- A state holds the bytes of one string of a given length. -/
theorem holding_inj {a b : Bytes} (hlen : a.length = b.length) (h : a.length ≤ 40)
    (heq : holding 0 a = holding 0 b) : a = b := by
  have ha := slice_setFrom zero (show 0 + a.length ≤ 40 by omega)
  have hb := slice_setFrom zero (show 0 + b.length ≤ 40 by omega)
  rw [holding, holding] at heq
  rw [heq, hlen, hb] at ha
  exact ha.symm

/-- Takes in blocks from the start of the state on, each followed by the permutation. -/
def absorbBlocks (rounds : Nat) (blocks : List Bytes) (s : State) : State :=
  blocks.foldl (fun s block => (s ^^^ holding 0 block).lastRounds rounds) s

theorem absorbBlocks_append (rounds : Nat) (blocks more : List Bytes) (s : State) :
    absorbBlocks rounds (blocks ++ more) s =
      absorbBlocks rounds more (absorbBlocks rounds blocks s) :=
  List.foldl_append

theorem absorbBlocks_concat (rounds : Nat) (blocks : List Bytes) (block : Bytes) (s : State) :
    absorbBlocks rounds (blocks ++ [block]) s =
      (absorbBlocks rounds blocks s ^^^ holding 0 block).lastRounds rounds := by
  unfold absorbBlocks
  rw [List.foldl_append, List.foldl_cons, List.foldl_nil]

end Ascon.State
