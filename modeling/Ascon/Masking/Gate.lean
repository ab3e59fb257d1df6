import Ascon.Masking.Sharing
import Ascon.Random.Tape

/-! # The masked gate

  The product of two shared words is the sum of the products of all pairs of
  their shares. Adding those up carelessly would bring together what must stay
  apart, so the products of two different shares are added in under a random
  word, one for each pair of shares, which goes into both shares of the pair
  and so cancels in the whole.
-/

namespace Ascon.Masking

variable {n : Nat}

/-- The pairs `i < j` of share indices, in the order in which their random words are drawn. -/
def pairs (n : Nat) : List (Fin n × Fin n) :=
  (List.finRange n).flatMap fun i => ((List.finRange n).filter (i < ·)).map fun j => (i, j)

/-- Adds the products of the shares `i` and `j` with one another, under the random word `r`. -/
def crossTerm (a b acc : Sharing UInt64 n) (i j : Fin n) (r : UInt64) : Sharing UInt64 n :=
  let acc := acc.set i (acc.get i ^^^ r) i.isLt
  acc.set j (acc.get j ^^^ ((r ^^^ (a.get i &&& b.get j)) ^^^ (a.get j &&& b.get i))) j.isLt

/-- A sharing of the conjunction of two shared words, with the given random words. -/
def andWith (words : Vector UInt64 (pairs n).length) (a b : Sharing UInt64 n) :
    Sharing UInt64 n :=
  ((pairs n).zip words.toList).foldl (fun acc step => crossTerm a b acc step.1.1 step.1.2 step.2)
    (Vector.zipWith (· &&& ·) a b)

/-- A sharing of the complement of a shared word. -/
def complement (a : Sharing UInt64 n) : Sharing UInt64 n := a.onFirst (~~~ ·)

/-- A fresh sharing of `~~~a &&& b`. -/
def andNot (a b : Sharing UInt64 n) : Draw (Sharing UInt64 n) := do
  return andWith (← Draw.words _) (complement a) b

end Ascon.Masking
