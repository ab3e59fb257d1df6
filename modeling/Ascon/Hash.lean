import Ascon.Xof

/-! # Hashing

  A hash is an XOF for 32 bytes of output whose digest can be taken once.
  After that it refuses more data and a second digest until it is started
  afresh.
-/

namespace Ascon

/-- A hash with some data absorbed. -/
structure Hash (v : HashVariant) where
  /-- The XOF that does the work. -/
  xof : Xof v
  /-- Whether the digest has been taken. -/
  finalized : Bool
deriving DecidableEq, Repr

/-- The output of a hash. -/
abbrev Digest := Vector UInt8 digestBytes

namespace Hash

variable {v : HashVariant}

/-- A hash with nothing absorbed. -/
def new : Hash v := ⟨.withOutputLen digestBytes, false⟩

/-- Absorbs more data, unless the digest has been taken. -/
def update (h : Hash v) (data : Bytes) : Except Fault (Hash v) := do
  if h.finalized then throw .updateAfterFinalize
  return { h with xof := ← h.xof.absorb data }

/-- The digest of everything absorbed so far, unless it has been taken. -/
def finalize (h : Hash v) : Except Fault (Digest × Hash v) := do
  if h.finalized then throw .finalizeTwice
  let (out, xof) ← h.xof.squeeze digestBytes
  return (out, ⟨xof, true⟩)

/-- The hash started afresh. -/
def reinit (h : Hash v) : Hash v := ⟨h.xof.reinit, false⟩

/-- The digest of everything absorbed so far, and the hash started afresh. -/
def finalizeReset (h : Hash v) : Except Fault (Digest × Hash v) := do
  let (out, h) ← h.finalize
  return (out, h.reinit)

/-- The digest of `data`. -/
def digest (v : HashVariant) (data : Bytes) : Except Fault Digest := do
  let h ← (new : Hash v).update data
  let (out, _) ← h.finalize
  return out

/-! ### Commands -/

/-- What a caller can ask of a hash. -/
inductive Command where
  | update (data : Bytes)
  | finalize
  /-- Take the digest of a copy, and leave the hash as it is. -/
  | peek
  /-- Take the digest and start afresh. -/
  | finalizeReset
  | reinit
deriving Repr

/-- What a hash does with a command: the digest, if one was taken, and the next hash. -/
def obey (h : Hash v) : Command → Except Fault (Option Digest × Hash v)
  | .update data => return (none, ← h.update data)
  | .finalize => do
    let (out, h) ← h.finalize
    return (out, h)
  | .peek => do
    let (out, _) ← h.finalize
    return (out, h)
  | .finalizeReset => do
    let (out, h) ← h.finalizeReset
    return (out, h)
  | .reinit => return (none, h.reinit)

end Hash

end Ascon
