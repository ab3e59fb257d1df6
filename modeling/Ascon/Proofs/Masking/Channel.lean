import Ascon.Attached
import Ascon.Proofs.Aead.Unchecked
import Ascon.Proofs.Masking.Duplex
import Ascon.Proofs.Session
import Ascon.Random.Generator

/-! # A masked channel is a channel

  Over any session of messages, whatever is on the tape, a masked cipher gives
  the ciphertexts, tags and plaintexts that the plain cipher with the same key
  gives, and its shares go on sharing that key.

  - Splitting and refreshing a key change its shares alone. So the key that is
    shared is the same however often it has been refreshed.
  - A message is worked through by one definition of the mode on both sides,
    over duplexes that agree.
-/

namespace Ascon

open MaskedState Session Sharing

/-! ### Keys in shares -/

namespace MaskedKey

variable {k n : Nat}

/-- A key is split into shares of itself. -/
theorem agree_ofKey (hn : 2 ≤ n ∧ n ≤ 4) (key : Vector UInt8 k) :
    Agree (fun shares key => combine shares = key) (ofKey n key)
      (pure key : Except Fault (Vector UInt8 k)) := by
  unfold ofKey
  rw [checkShares_of_le hn]
  intro tape
  exact .ok (combine_ofRest (by omega) key _)

theorem yields_randomize (hn : 0 < n) (key : MaskedKey k n) :
    (randomize key).Yields fun shares => combine shares = combine key :=
  fun _ => combine_refreshWith hn key _

theorem yields_randomizeTimes (hn : 0 < n) (times : Nat) (key : MaskedKey k n) :
    (randomizeTimes times key).Yields fun shares => combine shares = combine key := by
  induction times generalizing key with
  | zero => exact yields_pure rfl
  -- each refresh shares what was shared before
  | succ times ih =>
    refine yields_bind (yields_randomize hn key) fun shares hshares => ?_
    rw [← hshares]
    exact ih shares

end MaskedKey

/-! ### The cipher -/

namespace MaskedAead

variable {v : Aead.Variant} {n : Nat}

/-- The plain cipher with the shared key. -/
def unmask (c : MaskedAead v n) : Aead v := ⟨combine c.key⟩

theorem agree_ofRefreshedKey (hn : 2 ≤ n ∧ n ≤ 4) (key : Vector UInt8 v.keySize)
    (times : Nat) :
    Agree (fun c plain => unmask c = plain) (ofRefreshedKey n key times)
      (pure ⟨key⟩ : Except Fault (Aead v)) := by
  have hpos : 0 < n := by omega
  apply agree_value_bind (MaskedKey.agree_ofKey hn key)
  intro shares hshares
  apply agree_draw_bind (MaskedKey.yields_randomizeTimes hpos times shares)
  intro fresh hfresh
  exact agree_pure (congrArg Aead.mk (hfresh.trans hshares))

/-- A cipher that has been readied for a message shares the same key, and so does its duplex. -/
theorem agree_ready (hn : 2 ≤ n ∧ n ≤ 4) (c : MaskedAead v n) :
    Agree (fun p e => unmask p.1 = unmask c ∧ MaskedDuplex.Masks p.2 e) c.ready
      (pure (PlainDuplex.new (combine c.key)) : Except Fault (PlainDuplex v.keySize)) := by
  have hpos : 0 < n := by omega
  apply agree_draw_bind (MaskedKey.yields_randomize hpos c.key)
  intro key hkey
  apply agree_value_bind (agree_new hn)
  intro state hstate
  exact agree_pure ⟨congrArg Aead.mk hkey, hstate, hkey⟩

/-- What a readied cipher does with a message is what the plain cipher does, if it does so on
    duplexes that agree, and the cipher goes on sharing its key. -/
theorem ready_run (hn : 2 ≤ n ∧ n ≤ 4) (c : MaskedAead v n) {α : Type}
    {x : MaskedDuplex v.keySize n → CheckedDraw α} {y : PlainDuplex v.keySize → Except Fault α}
    (hxy : ∀ {d e}, MaskedDuplex.Masks d e → Agree Eq (x d) (y e)) {out : α}
    (hy : y (PlainDuplex.new (combine c.key)) = .ok out) (tape : Tape) :
    ∃ next rest, unmask next = unmask c ∧
      StateT.run (do let (c, d) ← c.ready; return (← x d, c)) tape = .ok ((out, next), rest) := by
  have hagree : Agree (fun p out => p.1 = out ∧ unmask p.2 = unmask c)
      (do let (c, d) ← c.ready; return (← x d, c) : CheckedDraw (α × MaskedAead v n))
      (y (PlainDuplex.new (combine c.key))) := by
    apply agree_value_bind (agree_ready hn c)
    rintro ⟨next, d⟩ ⟨hnext, hd⟩
    exact agree_bind_pure (hxy hd) fun _ _ hout => ⟨hout, hnext⟩
  -- since the plain cipher succeeds, so does the masked one
  rw [hy] at hagree
  obtain ⟨⟨⟨out', next⟩, rest⟩, hrun, hout, hnext⟩ := exists_run_of_agree_pure hagree tape
  cases hout
  exact ⟨next, rest, hnext, hrun⟩

/-- A masked cipher encrypts as the plain one does. -/
theorem encrypt_run (hn : 2 ≤ n ∧ n ≤ 4) (c : MaskedAead v n) (nonce : Nonce)
    (ad data : Bytes) (tape : Tape) :
    ∃ out next rest, (unmask c).encrypt nonce ad data = .ok out ∧ unmask next = unmask c ∧
      (c.encrypt nonce ad data).run tape = .ok ((out, next), rest) := by
  have hsim := MaskedDuplex.simulation_masks (k := v.keySize) (n := n) (by omega)
  have hplain := Aead.encrypt_unchecked (unmask c) nonce ad data
  obtain ⟨next, rest, hnext, hrun⟩ :=
    ready_run hn c (Aead.agree_encryptWith hsim v.wellFormed nonce ad data) hplain tape
  exact ⟨_, next, rest, hplain, hnext, hrun⟩

/-- A masked cipher decrypts as the plain one does. -/
theorem decrypt_run (hn : 2 ≤ n ∧ n ≤ 4) (c : MaskedAead v n) (nonce : Nonce)
    (ad data : Bytes) (tag : Tag) (tape : Tape) :
    ∃ out next rest, (unmask c).decrypt nonce ad data tag = .ok out ∧ unmask next = unmask c ∧
      (c.decrypt nonce ad data tag).run tape = .ok ((out, next), rest) := by
  have hsim := MaskedDuplex.simulation_masks (k := v.keySize) (n := n) (by omega)
  have hplain := Aead.decrypt_unchecked (unmask c) nonce ad data tag
  obtain ⟨next, rest, hnext, hrun⟩ :=
    ready_run hn c (Aead.agree_decryptWith hsim v.wellFormed nonce ad data tag) hplain tape
  exact ⟨_, next, rest, hplain, hnext, hrun⟩

/-! ### One command -/

/-- The command to a plain channel that asks for the same. -/
def Command.plain : Command → Ascon.Channel.Command
  | .nonce c => .nonce c
  | .encrypt ad data => .encrypt ad data
  | .decrypt ad data tag => .decrypt ad data tag

/-- The reply of a plain channel that says the same. -/
def Reply.plain : Reply → Ascon.Channel.Reply
  | .done => .done
  | .encrypted out tag => .encrypted out tag
  | .decrypted outcome => .decrypted outcome

/-- The plain channel with the shared key and the same nonce. -/
def Channel.unmask (ch : Channel v n) : Ascon.Channel (Aead v) :=
  ⟨MaskedAead.unmask ch.cipher, ch.nonce⟩

/-- A cipher that shares the same key makes the same plain channel. -/
theorem Channel.unmask_eq (ch : Channel v n) {next : MaskedAead v n}
    (hnext : MaskedAead.unmask next = MaskedAead.unmask ch.cipher) (rest : Tape) :
    Channel.unmask { ch with cipher := next, tape := rest } = ch.unmask :=
  congrArg (fun cipher => Ascon.Channel.mk cipher ch.nonce) hnext

/-- Every command is obeyed, as the plain channel obeys it, and the key stays the same. -/
theorem Channel.obey_run (hn : 2 ≤ n ∧ n ≤ 4) (ch : Channel v n) (c : Command) :
    ∃ r next, ch.obey c = .ok (r, next) ∧
      MaskedAead.unmask next.cipher = MaskedAead.unmask ch.cipher ∧
      ch.unmask.obey c.plain = .ok (r.plain, next.unmask) := by
  cases c with
  | nonce c => exact ⟨.done, { ch with nonce := ch.nonce.apply c }, rfl, rfl, rfl⟩
  | encrypt ad data =>
    obtain ⟨⟨out, tag⟩, next, rest, hplain, hnext, hrun⟩ :=
      encrypt_run hn ch.cipher ch.nonce ad data ch.tape
    have hdetached : DetachedCipher.encrypt ch.unmask.cipher ch.unmask.nonce ad data =
        .ok (out, tag) := hplain
    refine ⟨.encrypted out tag, { ch with cipher := next, tape := rest }, ?_, hnext, ?_⟩
    · rw [obey, hrun]
      rfl
    · rw [Command.plain, Ascon.Channel.obey, hdetached, ch.unmask_eq hnext rest]
      rfl
  | decrypt ad data tag =>
    obtain ⟨outcome, next, rest, hplain, hnext, hrun⟩ :=
      decrypt_run hn ch.cipher ch.nonce ad data tag ch.tape
    have hdetached : DetachedCipher.decrypt ch.unmask.cipher ch.unmask.nonce ad data tag =
        .ok outcome := hplain
    refine ⟨.decrypted outcome, { ch with cipher := next, tape := rest }, ?_, hnext, ?_⟩
    · rw [obey, hrun]
      rfl
    · rw [Command.plain, Ascon.Channel.obey, hdetached, ch.unmask_eq hnext rest]
      rfl

/-- Seen without its shares, a masked channel obeys as a plain one does. -/
theorem Channel.obey_unmask (hn : 2 ≤ n ∧ n ≤ 4) (ch : Channel v n) (c : Command) :
    (ch.obey c).map (Prod.map Reply.plain Channel.unmask) = ch.unmask.obey c.plain := by
  obtain ⟨r, next, hobey, _, hplain⟩ := ch.obey_run hn c
  rw [hobey, hplain]
  rfl

/-! ### Sessions -/

/-- However often its key is refreshed, a masked channel starts out with the key it was made
    from. -/
theorem Channel.new_run (hn : 2 ≤ n ∧ n ≤ 4) (key : Vector UInt8 v.keySize) (times : Nat)
    (nonce : Nonce) (tape : Tape) :
    ∃ ch, Channel.new n key times nonce tape = .ok ch ∧ ch.unmask = ⟨⟨key⟩, nonce⟩ := by
  obtain ⟨⟨cipher, rest⟩, hrun, hkey⟩ :=
    exists_run_of_agree_pure (agree_ofRefreshedKey hn key times) tape
  refine ⟨⟨cipher, nonce, rest⟩, ?_, ?_⟩
  · unfold Channel.new
    rw [hrun]
    rfl
  · exact congrArg (fun cipher => Ascon.Channel.mk cipher nonce) hkey

/-- Over any session a masked channel replies what the plain channel with the same key replies:
    the same ciphertexts, tags and plaintexts, and the same zeros in place of a message that is
    turned down. It is never refused, and after every step its shares are shares of the key. This
    is so for every tape, and however often the key has been refreshed beforehand. -/
theorem Channel.trace_plain (hn : 2 ≤ n ∧ n ≤ 4) (key : Vector UInt8 v.keySize) (times : Nat)
    (nonce : Nonce) (tape : Tape) (steps : List (Step Command)) :
    ∃ ch, Channel.new n key times nonce tape = .ok ch ∧
      (trace Channel.obey (.start ch) steps).map
          (Prod.map (Answer.map Reply.plain) Channel.unmask) =
        trace Ascon.Channel.obey (.start ⟨Aead.mk key, nonce⟩)
          (steps.map (Step.map Command.plain)) ∧
      ∀ item ∈ trace Channel.obey (.start ch) steps,
        (∀ fault, item.1 ≠ .refused fault) ∧ combine item.2.cipher.key = key := by
  obtain ⟨ch, hnew, hch⟩ := Channel.new_run hn key times nonce tape
  refine ⟨ch, hnew, ?_, ?_⟩
  -- the replies: every command is obeyed alike
  · have hsteps : ∀ c, .command c ∈ steps → True := fun _ _ => trivial
    rw [trace_view (fun ch c _ => Channel.obey_unmask hn ch c) (.start ch) hsteps, ← hch]
    rfl
  -- the key: no command changes what is shared
  · have hstart : MaskedAead.unmask ch.cipher = ⟨key⟩ := congrArg Ascon.Channel.cipher hch
    have hkeep : ∀ (ch : Channel v n) c, MaskedAead.unmask ch.cipher = ⟨key⟩ →
        ∃ r next, ch.obey c = .ok (r, next) ∧ MaskedAead.unmask next.cipher = ⟨key⟩ := by
      intro ch c hch
      obtain ⟨r, next, hobey, hnext, _⟩ := ch.obey_run hn c
      exact ⟨r, next, hobey, hnext.trans hch⟩
    intro item hitem
    obtain ⟨hanswer, hitemkey⟩ := trace_inv hkeep hstart hstart steps item hitem
    exact ⟨hanswer, congrArg Aead.key hitemkey⟩

/-- A session of three shares: a message under a nonce that counts, a forged one, and a copy gone
    back to. -/
def sampleMessages : List (Step Command) :=
  [.command (.nonce (.setCounter 7)), .save, .command (.encrypt [1] [2, 3]),
    .command (.nonce (.increment 1)), .command (.decrypt [] [5, 6, 7] (Vector.replicate _ 0)),
    .restore, .command (.encrypt [] [])]

theorem Channel.trace_plain_sampleMessages :
    (2 ≤ 3 ∧ 3 ≤ 4) ∧
      ∃ ch : Channel .ascon80pq 3,
        Channel.new 3 (Vector.replicate _ 1) 2 Nonce.zero (.cycle #[5]) = .ok ch ∧
        (trace Channel.obey (.start ch) sampleMessages).map
            (Prod.map (Answer.map Reply.plain) Channel.unmask) =
          trace Ascon.Channel.obey (.start ⟨Aead.mk (Vector.replicate _ 1), Nonce.zero⟩)
            (sampleMessages.map (Step.map Command.plain)) ∧
        ∀ item ∈ trace Channel.obey (.start ch) sampleMessages,
          (∀ fault, item.1 ≠ .refused fault) ∧
            combine item.2.cipher.key = Vector.replicate _ 1 :=
  ⟨by decide, Channel.trace_plain (by decide) _ 2 Nonce.zero (.cycle #[5]) sampleMessages⟩

end MaskedAead

end Ascon
