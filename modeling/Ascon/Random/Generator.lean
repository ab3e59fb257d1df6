import Ascon.Random.Tape

/-! # Tapes from generators

  Two ways to fill a tape: from a seed, by mixing a counter, or from a list of
  words that is repeated without end.
-/

namespace Ascon

/-- The step of the counter: the odd number nearest to 2⁶⁴ divided by the golden ratio. -/
def goldenGamma : UInt64 := 0x9e3779b97f4a7c15

/-- Mixes the bits of a counter value. -/
def mixBits (x : UInt64) : UInt64 :=
  let z := (x ^^^ (x >>> 30)) * 0xbf58476d1ce4e5b9
  let z := (z ^^^ (z >>> 27)) * 0x94d049bb133111eb
  z ^^^ (z >>> 31)

/-- The tape of a seed. Its word number `n` is the mixed value of a counter that starts at the seed
and has made `n + 1` steps. -/
def Tape.ofSeed (seed : UInt64) : Tape :=
  ⟨fun n => mixBits (seed + (n + 1).toUInt64 * goldenGamma), 0⟩

/-- The tape that repeats some words for ever, and is all zeros if there are none. -/
def Tape.cycle (words : Array UInt64) : Tape :=
  ⟨fun n => words.getD (n % words.size) 0, 0⟩

end Ascon
