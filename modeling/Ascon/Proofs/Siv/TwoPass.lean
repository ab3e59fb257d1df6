import Ascon.Proofs.Aead.Padding
import Ascon.Proofs.Siv

/-! # The two passes of misuse-resistant encryption

  What misuse-resistant encryption computes, in terms that leave its duplex out.

  - The first pass only takes the message in, where authenticated encryption also
    gives a ciphertext out. Both leave the same duplex behind, so the tag is the
    one that authenticated encryption gives with the initial value of this pass.
  - The second pass adds to every byte a byte of the state that is started from
    the tag, permuted once for each block up to and including the byte's own. It
    starts over, so it is no matter what the first pass has left in the duplex.
-/

namespace Ascon.Siv

/-- The tag of a message is the one that comes with its ciphertext. -/
theorem authenticate_fst {k : Nat} (p : Parameters) (nonce : Nonce) (ad data : Bytes)
    (d : UncheckedDuplex k) :
    (Id.run (authenticate p nonce ad data d)).1 =
      (Id.run (Aead.encryptWith p nonce ad data d)).2 := by
  let started : UncheckedDuplex k := Aead.setUp p nonce d
  let readied : UncheckedDuplex k := Aead.absorbAssociated p ad started
  have hleft := Aead.feed_snd_congr (p := p) Aead.encryptBytes_snd data readied
  -- both tags are read from what is left of the duplex behind the message
  exact congrArg (fun e : UncheckedDuplex k => (Id.run (Aead.finalize p e)).1) hleft.symm

/-- The state that a keystream is started from is the one that authenticated encryption starts
    from, with the tag for a nonce. -/
theorem streamStart_eq {p : Parameters} (hp : p.WellFormed) (key : Vector UInt8 p.keySize)
    (tag : Tag) : streamStart p key tag = Aead.startState p key tag :=
  congrArg UncheckedDuplex.state (Aead.setUp_eq hp key tag)

variable {v : Variant}

/-- Authenticated encryption with the initial value of the first pass gives the tag. -/
theorem encryptWith_authParameters (c : Siv v) (nonce : Nonce) (ad data : Bytes) :
    ∃ out, Aead.encryptWith v.authParameters nonce ad data (PlainDuplex.new c.key) =
      .ok (out, c.tag nonce ad data) := by
  have hsim := PlainDuplex.simulation_unchecked c.key
  obtain ⟨sent, hrun, hsent⟩ := Aead.agree_encryptWith (p := v.authParameters) hsim
    v.authParameters_wellFormed nonce ad data (PlainDuplex.same_new c.key)
  refine ⟨sent.1, hrun.trans (congrArg Except.ok (Prod.ext rfl ?_))⟩
  rw [hsent]
  exact (authenticate_fst v.authParameters nonce ad data (PlainDuplex.new c.key).unchecked).symm

theorem streamed_eq_mapIdx (c : Siv v) (tag : Tag) (data : Bytes) :
    c.streamed tag data = data.mapIdx fun i b =>
      b ^^^ streamByte v.streamParameters (Aead.startState v.streamParameters c.key tag) i := by
  have hstart : streamStart (k := v.keySize) v.streamParameters c.key tag =
      Aead.startState v.streamParameters c.key tag :=
    streamStart_eq v.streamParameters_wellFormed c.key tag
  unfold streamed
  rw [hstart]
  rfl

/-- Misuse-resistant encryption is made of two passes. The tag is the one of authenticated
    encryption under the initial value of the first pass. The byte at position `i` of the ciphertext
    is the byte of the message combined with byte `i % rate` of the state that is started from the
    initial value of the second pass, the key and the tag, behind `i / rate + 1` permutations. So
    the keystream does not depend on the length of the message, nor on what the duplex has held
    before. -/
theorem encrypt_two_pass (c : Siv v) (nonce : Nonce) (ad data : Bytes) :
    ∃ (tag : Tag) (stream : Nat → UInt8),
      (∃ out, Aead.encryptWith v.authParameters nonce ad data (PlainDuplex.new c.key) =
        .ok (out, tag)) ∧
      (∀ i, stream i = (Nat.repeat (State.lastRounds v.base.parameters.rounds)
        (i / v.base.parameters.rate + 1) (Aead.startState v.streamParameters c.key tag)).byte
          (i % v.base.parameters.rate)) ∧
      c.encrypt nonce ad data = .ok (data.mapIdx fun i b => b ^^^ stream i, tag) ∧
      ∀ (held : State) (other : Bytes), ∃ d,
        applyStream v.streamParameters tag other (⟨held, c.key⟩ : PlainDuplex v.keySize) =
          .ok (other.mapIdx fun i b => b ^^^ stream i, d) := by
  refine ⟨c.tag nonce ad data, streamByte v.streamParameters
    (Aead.startState v.streamParameters c.key (c.tag nonce ad data)),
    c.encryptWith_authParameters nonce ad data, fun _ => rfl, ?_, fun held other => ?_⟩
  · rw [encrypt_eq, streamed_eq_mapIdx]
  · obtain ⟨d, _, hrun⟩ := applyStream_run (k := v.keySize) v.streamParameters_wellFormed rfl
      (c.tag nonce ad data) other ⟨held, c.key⟩
    rw [← streamed_eq_mapIdx]
    exact ⟨d, hrun⟩

end Ascon.Siv
