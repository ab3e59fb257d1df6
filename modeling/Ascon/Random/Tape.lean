import Ascon.Fault
import Ascon.Lane

/-! # Random tapes

  Randomness is a tape of words that is read from left to right. What a
  masked computation does is then a function of its inputs and the tape, and
  the number of words it has used is a part of its result.

  - `Draw` reads words and cannot fail. `CheckedDraw` may also be refused, and
    a refused computation has read nothing.
  - Blocks of words are read at once: `Draw.words` says which word of the tape
    ends up where.
-/

namespace Ascon

/-- An endless tape of words, with the place that has been reached on it. -/
structure Tape where
  word : Nat → UInt64
  /-- The number of words that have been read. -/
  drawn : Nat

/-- A computation that reads a tape. -/
abbrev Draw := StateM Tape

/-- A computation that reads a tape and may be refused. -/
abbrev CheckedDraw := StateT Tape (Except Fault)

instance Draw.monadLift : MonadLift Draw CheckedDraw where
  monadLift draw := fun tape => .ok (draw tape)

namespace Draw

/-- The next `n` words of the tape, in order. -/
def words (n : Nat) : Draw (Vector UInt64 n) := fun tape =>
  (Vector.ofFn fun i => tape.word (tape.drawn + i), { tape with drawn := tape.drawn + n })

/-- The next `k` bytes of the tape. Every word gives eight bytes, the least significant one first,
and what is left of the last word is thrown away. -/
def bytes (k : Nat) : Draw (Vector UInt8 k) := fun tape =>
  (Vector.ofFn fun i => Lane.get (tape.word (tape.drawn + i / 8)) (7 - i % 8),
    { tape with drawn := tape.drawn + (k + 7) / 8 })

/-- The outcomes of `n` draws of the same kind, in order. -/
def vector {α : Type} (draw : Draw α) : (n : Nat) → Draw (Vector α n)
  | 0 => return #v[]
  | n + 1 => do
    let front ← vector draw n
    return front.push (← draw)

@[simp] theorem words_fst (n : Nat) (tape : Tape) :
    (words n tape).1 = Vector.ofFn fun i => tape.word (tape.drawn + i) := rfl

@[simp] theorem words_snd (n : Nat) (tape : Tape) :
    (words n tape).2 = { tape with drawn := tape.drawn + n } := rfl

@[simp] theorem bytes_snd (k : Nat) (tape : Tape) :
    (bytes k tape).2 = { tape with drawn := tape.drawn + (k + 7) / 8 } := rfl

end Draw

end Ascon
