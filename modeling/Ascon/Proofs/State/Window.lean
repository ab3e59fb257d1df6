import Ascon.Permutation
import Ascon.State.Window

/-! # Operations that are not refused

  On a window inside the state, every operation has the value that it would
  have without its check. So has the permutation, for a number of rounds that
  it has.
-/

namespace Ascon.State

theorem permute_of_le (s : State) {rounds : Nat} (h : 1 ≤ rounds ∧ rounds ≤ maxRounds) :
    s.permute rounds = .ok (s.lastRounds rounds) := by
  unfold permute
  rw [checkRounds_of_le h]
  rfl

section inside

variable (s : State) {data : Bytes} {offset len : Nat}

theorem overwriteBytes_of_le (h : offset + data.length ≤ 40) :
    s.overwriteBytes data offset = .ok (s.setFrom offset data) := by
  unfold overwriteBytes
  rw [checkWindow_of_le h]
  rfl

theorem addBytes_of_le (h : offset + data.length ≤ 40) :
    s.addBytes data offset = .ok (s.addFrom offset data) := by
  unfold addBytes
  rw [checkWindow_of_le h]
  rfl

theorem overwriteZeroes_of_le (h : offset + len ≤ 40) :
    s.overwriteZeroes offset len = .ok (s.setFrom offset (List.replicate len 0)) := by
  unfold overwriteZeroes
  rw [checkWindow_of_le h]
  rfl

theorem extractBytes_of_le (h : offset + len ≤ 40) :
    s.extractBytes offset len = .ok (s.slice offset len) := by
  unfold extractBytes
  rw [checkWindow_of_le h]
  rfl

theorem extractByte_of_lt (h : offset < 40) : s.extractByte offset = .ok (s.byte offset) := by
  have hslice : (s.slice offset 1)[0] = s.byte offset := by simp [slice]
  unfold extractByte
  rw [extractBytes_of_le s h, ← hslice]
  rfl

theorem extractAdd_of_le (h : offset + data.length ≤ 40) :
    s.extractAdd data data.length offset =
      .ok (xorBytes (s.slice offset data.length).toList data) := by
  have hroom : checkRoom data data.length = .ok () := if_pos rfl
  unfold extractAdd
  rw [hroom, checkWindow_of_le h]
  rfl

theorem extractOverwrite_of_le (h : offset + data.length ≤ 40) :
    s.extractOverwrite data offset =
      .ok (xorBytes (s.slice offset data.length).toList data, s.setFrom offset data) := by
  unfold extractOverwrite
  rw [checkWindow_of_le h]
  rfl

theorem addExtract_of_le (h : offset + data.length ≤ 40) :
    s.addExtract data offset =
      .ok (((s.addFrom offset data).slice offset data.length).toList, s.addFrom offset data) := by
  unfold addExtract
  rw [checkWindow_of_le h]
  rfl

end inside

end Ascon.State
