import Ascon.Blocks

/-! # Cutting into blocks is the inverse of joining

  Full blocks with a shorter rest behind them are recovered from what they are
  joined to. So whatever a mode does block by block keeps the blocks of a
  message in their places.
-/

namespace Ascon.Blocks

variable {rate : Nat}

theorem cut_flatten_append {blocks : List Bytes} (hlen : ∀ block ∈ blocks, block.length = rate)
    (rest : Bytes) : cut rate blocks.length (blocks.flatten ++ rest) = ⟨blocks, rest⟩ := by
  induction blocks with
  | nil => rfl
  | cons block blocks ih =>
    have hblock : block.length = rate := hlen block List.mem_cons_self
    have hblocks := ih fun b hb => hlen b (List.mem_cons_of_mem _ hb)
    -- the first block is all that is cut off at the first step
    rw [List.length_cons, cut, List.flatten_cons, List.append_assoc, ← hblock,
      List.drop_left, List.take_left, hblock, hblocks]

theorem length_flatten {blocks : List Bytes} (hlen : ∀ block ∈ blocks, block.length = rate) :
    blocks.flatten.length = blocks.length * rate := by
  induction blocks with
  | nil => simp
  | cons block blocks ih =>
    have hblock : block.length = rate := hlen block List.mem_cons_self
    have hblocks := ih fun b hb => hlen b (List.mem_cons_of_mem _ hb)
    rw [List.flatten_cons, List.length_append, hblock, hblocks, List.length_cons, Nat.succ_mul,
      Nat.add_comm]

/-- The blocks of full blocks with a rest behind them. -/
theorem of_flatten_append {blocks : List Bytes} (hlen : ∀ block ∈ blocks, block.length = rate)
    {rest : Bytes} (hrest : rest.length < rate) :
    of rate (blocks.flatten ++ rest) = ⟨blocks, rest⟩ := by
  have hcount : (blocks.flatten ++ rest).length / rate = blocks.length := by
    rw [List.length_append, length_flatten hlen, Nat.add_comm,
      Nat.add_mul_div_right _ _ (by omega), Nat.div_eq_of_lt hrest, Nat.zero_add]
  unfold of
  rw [hcount, cut_flatten_append hlen]

/-- What comes behind a message goes into its rest, as long as this does not fill a block. -/
theorem of_append_of_lt (data : Bytes) {more : Bytes}
    (h : (of rate data).rest.length + more.length < rate) :
    of rate (data ++ more) = ⟨(of rate data).full, (of rate data).rest ++ more⟩ := by
  have hfull : ∀ block ∈ (of rate data).full, block.length = rate := length_of_mem
  have hrest : ((of rate data).rest ++ more).length < rate := by
    rw [List.length_append]
    exact h
  have hcut := of_flatten_append hfull hrest
  rwa [← List.append_assoc, of_join] at hcut

/-- What fills the rest of a message makes one more block of it. -/
theorem of_append_of_eq (hrate : 0 < rate) (data : Bytes) {more : Bytes}
    (h : (of rate data).rest.length + more.length = rate) :
    of rate (data ++ more) = ⟨(of rate data).full ++ [(of rate data).rest ++ more], []⟩ := by
  have hfull : ∀ block ∈ (of rate data).full ++ [(of rate data).rest ++ more],
      block.length = rate := by
    intro block hblock
    rcases List.mem_append.1 hblock with hmem | hmem
    · exact length_of_mem block hmem
    · rw [List.mem_singleton.1 hmem, List.length_append]
      exact h
  have hnil : ([] : Bytes).length < rate := hrate
  have hcut := of_flatten_append hfull hnil
  rwa [List.append_nil, List.flatten_append, List.flatten_singleton, ← List.append_assoc,
    of_join] at hcut

/-- The rest is shorter than a block. -/
theorem length_rest_lt (hrate : 0 < rate) (data : Bytes) : (of rate data).rest.length < rate := by
  rw [length_rest]
  exact Nat.mod_lt _ hrate

/-- A message with full blocks in front of it has these blocks in front of its own. -/
theorem of_append_of_dvd (hrate : 0 < rate) {front : Bytes} (h : rate ∣ front.length)
    (data : Bytes) :
    of rate (front ++ data) =
      ⟨(of rate front).full ++ (of rate data).full, (of rate data).rest⟩ := by
  have hnone : (of rate front).rest = [] := by
    rw [← List.length_eq_zero_iff, length_rest, Nat.mod_eq_zero_of_dvd h]
  have hfront : (of rate front).full.flatten = front := by
    have hjoin := of_join rate front
    rwa [hnone, List.append_nil] at hjoin
  have hfull : ∀ block ∈ (of rate front).full ++ (of rate data).full, block.length = rate := by
    intro block hblock
    rcases List.mem_append.1 hblock with hmem | hmem
    · exact length_of_mem block hmem
    · exact length_of_mem block hmem
  have hcut := of_flatten_append hfull (length_rest_lt hrate data)
  rwa [List.flatten_append, hfront, List.append_assoc, of_join] at hcut

/-- No piece is longer than a block. -/
theorem length_of_mem_pieces (hrate : 0 < rate) {data : Bytes} :
    ∀ piece ∈ pieces rate data, piece.length ≤ rate := by
  intro piece hpiece
  have hfull : ∀ block ∈ (of rate data).full, block.length ≤ rate :=
    fun block hblock => Nat.le_of_eq (length_of_mem block hblock)
  rw [pieces] at hpiece
  split at hpiece
  · exact hfull piece hpiece
  · rcases List.mem_append.1 hpiece with hmem | hmem
    · exact hfull piece hmem
    · rw [List.mem_singleton.1 hmem]
      exact Nat.le_of_lt (length_rest_lt hrate data)

/-- Byte strings of the length of a block, of which the last one may be shorter. -/
inductive Tiled (rate : Nat) : List Bytes → Prop where
  | nil : Tiled rate []
  | last {piece : Bytes} (h : piece.length ≤ rate) : Tiled rate [piece]
  | cons {piece : Bytes} {pieces : List Bytes} (h : piece.length = rate)
      (rest : Tiled rate pieces) : Tiled rate (piece :: pieces)

theorem tiled_append {blocks pieces : List Bytes} (hlen : ∀ block ∈ blocks, block.length = rate)
    (h : Tiled rate pieces) : Tiled rate (blocks ++ pieces) := by
  induction blocks with
  | nil => exact h
  | cons block blocks ih =>
    have hrest := ih fun b hb => hlen b (List.mem_cons_of_mem _ hb)
    exact .cons (hlen block List.mem_cons_self) hrest

theorem tiled_pieces (hrate : 0 < rate) (data : Bytes) : Tiled rate (pieces rate data) := by
  have hfull : ∀ block ∈ (of rate data).full, block.length = rate := length_of_mem
  rw [pieces]
  split
  · rw [← List.append_nil (of rate data).full]
    exact tiled_append hfull .nil
  · exact tiled_append hfull (.last (Nat.le_of_lt (length_rest_lt hrate data)))

theorem flatten_pieces (rate : Nat) (data : Bytes) : (pieces rate data).flatten = data := by
  have hjoin := of_join rate data
  rw [pieces]
  split
  · next hempty =>
    rw [List.isEmpty_iff.1 hempty, List.append_nil] at hjoin
    exact hjoin
  · rw [List.flatten_append, List.flatten_cons, List.flatten_nil, List.append_nil, hjoin]

end Ascon.Blocks
