import Ascon.Lane

/-! # Blocks and padding

  A message is worked through in blocks of a fixed size, the rate. `Blocks.of`
  cuts it into full blocks and a rest that is shorter than a block and may be
  empty. The lemmas say that nothing is lost and that the pieces have the
  lengths they should have.
-/

namespace Ascon

/-- The byte that ends a message, right behind its last byte. -/
def padByte : UInt8 := 0x80

/-- The byte that sets parts of a keyed input apart, in the last byte of the state. -/
def separatorByte : UInt8 := 0x01

/-- A message cut into blocks. -/
structure Blocks where
  full : List Bytes
  /-- What is left behind the last full block. -/
  rest : Bytes
deriving DecidableEq, Repr

namespace Blocks

/-- Cuts off `count` blocks from the front of a message. -/
def cut (rate : Nat) : Nat → Bytes → Blocks
  | 0, data => ⟨[], data⟩
  | count + 1, data =>
    let blocks := cut rate count (data.drop rate)
    { blocks with full := data.take rate :: blocks.full }

/-- The blocks of a message. -/
def of (rate : Nat) (data : Bytes) : Blocks := cut rate (data.length / rate) data

/-- The blocks of a message with a last one that is shorter, if the message ends inside a block. -/
def pieces (rate : Nat) (data : Bytes) : List Bytes :=
  let blocks := of rate data
  if blocks.rest.isEmpty then blocks.full else blocks.full ++ [blocks.rest]

/-! ### Nothing is lost -/

theorem cut_join (rate count : Nat) (data : Bytes) :
    (cut rate count data).full.flatten ++ (cut rate count data).rest = data := by
  induction count generalizing data with
  | zero => rfl
  | succ count ih => simp [cut, ih]

/-- The blocks of a message and its rest make up the message. -/
theorem of_join (rate : Nat) (data : Bytes) :
    (of rate data).full.flatten ++ (of rate data).rest = data := cut_join ..

/-! ### Lengths -/

theorem length_of_mem_cut {rate count : Nat} {data : Bytes} (h : count * rate ≤ data.length) :
    ∀ block ∈ (cut rate count data).full, block.length = rate := by
  induction count generalizing data with
  | zero => simp [cut]
  | succ count ih =>
    rw [Nat.succ_mul] at h
    have hrest : count * rate ≤ (data.drop rate).length := by
      rw [List.length_drop]; omega
    intro block hblock
    simp only [cut, List.mem_cons] at hblock
    rcases hblock with rfl | hblock
    · rw [List.length_take]; omega
    · exact ih hrest block hblock

/-- Every full block has the length of the rate. -/
theorem length_of_mem {rate : Nat} {data : Bytes} :
    ∀ block ∈ (of rate data).full, block.length = rate :=
  length_of_mem_cut (Nat.div_mul_le_self ..)

theorem length_cut_rest (rate count : Nat) (data : Bytes) :
    (cut rate count data).rest.length = data.length - count * rate := by
  induction count generalizing data with
  | zero => simp [cut]
  | succ count ih => simp only [cut, ih, List.length_drop, Nat.succ_mul]; omega

/-- The rest is what the length leaves when it is divided by the rate. -/
theorem length_rest (rate : Nat) (data : Bytes) :
    (of rate data).rest.length = data.length % rate := by
  rw [of, length_cut_rest, Nat.mod_eq_sub_div_mul]

theorem length_cut_full (rate count : Nat) (data : Bytes) :
    (cut rate count data).full.length = count := by
  induction count generalizing data with
  | zero => rfl
  | succ count ih => simp [cut, ih]

/-- There are as many full blocks as fit into the message. -/
theorem length_full (rate : Nat) (data : Bytes) :
    (of rate data).full.length = data.length / rate := length_cut_full ..

end Blocks

end Ascon
