import Ascon.Sizes

/-! # Faults

  A fault is a broken contract: an operation was called with arguments that
  no correct caller passes. It is not an outcome of the cryptography, so a
  forged message, for instance, is not a fault.

  - Every operation that can be misused answers in `Except Fault`, and a
    refused operation hands back no new state. A caller that keeps the old
    value therefore finds everything as it was. Operations in place are the
    exception: they leave something behind also when they are refused.
  - A fault records its cause. `Fault.message` is its wording.
-/

namespace Ascon

/-- The ways in which the contract of an operation can be broken. -/
inductive Fault where
  /-- A number of rounds outside `1 … 12` was asked of the permutation. -/
  | rounds (count : Nat)
  /-- The `len` bytes at `offset` do not all lie inside the state. -/
  | window (offset len : Nat)
  /-- The input and the room for the output have different lengths. -/
  | bufferLengths
  /-- The byte strings that make up one sharing have different lengths. -/
  | shareLengths
  /-- A masked state was asked for with a number of shares outside `2 … 4`. -/
  | stateShares (count : Nat)
  /-- A masked key was asked for with a number of shares outside `2 … 4`. -/
  | keyShares (count : Nat)
  /-- Data was given to a hash whose digest has already been taken. -/
  | updateAfterFinalize
  /-- A digest was asked of a hash whose digest has already been taken. -/
  | finalizeTwice
deriving DecidableEq, Repr

/-- The wording of a fault. -/
def Fault.message : Fault → String
  | .rounds count => s!"Cannot apply {count} rounds of the permutation."
  | .window offset len =>
    s!"Cannot access {len} bytes at offset {offset} of a {stateBytes} byte state."
  | .bufferLengths => "Input and output buffers differ in length."
  | .shareLengths => "Shares differ in length."
  | .stateShares count =>
    s!"A masked state needs between {minShares} and {maxShares} shares, not {count}."
  | .keyShares count =>
    s!"A masked key needs between {minShares} and {maxShares} shares, not {count}."
  | .updateAfterFinalize => "Cannot update a finalized hash."
  | .finalizeTwice => "Cannot finalize a hash twice."

/-- Refuses a number of shares outside `2 … 4`, with the fault that `refusal` makes of it. -/
def checkShares (refusal : Nat → Fault) (count : Nat) : Except Fault Unit :=
  if minShares ≤ count ∧ count ≤ maxShares then .ok () else .error (refusal count)

/-! ### Results -/

section results

variable {ε α β : Type} {x : Except ε α} {f : α → β}

/-- A result that can be told from what is made of it is told by it. -/
theorem map_eq_ok_iff (hf : ∀ a b, f a = f b → a = b) {a : α} :
    x.map f = .ok (f a) ↔ x = .ok a := by
  cases x with
  | error e => exact ⟨nofun, nofun⟩
  | ok b =>
    constructor
    · intro h
      rw [hf b a (Except.ok.inj h)]
    · rintro ⟨⟩
      rfl

theorem map_eq_error_iff {e : ε} : x.map f = .error e ↔ x = .error e := by
  cases x with
  | error e' =>
    constructor
    · rintro ⟨⟩
      rfl
    · rintro ⟨⟩
      rfl
  | ok a => exact ⟨nofun, nofun⟩

end results

end Ascon
