import Ascon.Proofs.Hash
import Ascon.Proofs.Masking.Channel
import Ascon.Proofs.Prf
import Ascon.Proofs.Siv

/-! # No mode breaks a contract

  A fault is a broken contract, and the modes call operations that have contracts:
  accesses lie inside the state, buffers and shares have equal lengths, there is
  such a number of rounds. What a caller of a mode asks for never leads to a fault
  further down.

  - The sponges keep their cursor in front of the end of a block. This is what
    every command relies on and what every command leaves behind. It is also what
    their loops need in order to move on, and so to end.
  - `Sound` says of one object what this comes to: its cursor stands inside a
    block, and the loops that it runs when it is asked to absorb or to squeeze do
    end, in the outcome that it has.
  - A hash refuses what is asked of it after its digest has been taken. That is a
    contract with the caller, and it is the only one.
  - The ciphers have been compared with duplexes that have no contracts, and those
    comparisons say that they are never refused.
-/

namespace Ascon

open Session

/-! ### The XOF -/

namespace Xof

variable {v : HashVariant}

/-- An XOF that stands inside a block, and whose loops come to an end. -/
structure Sound (x : Xof v) : Prop where
  cursor_lt : x.sponge.cursor < xofRate
  absorb_ends (data : Bytes) : ∃ t, x.absorb data = .ok { x with sponge := t } ∧
    Sponge.TakesInTurns xofRate (Sponge.absorbPiece xofRate v.rounds) data x.sponge.resume t
  squeeze_ends (len : Nat) : ∃ s out t, closeInput x.sponge = .ok s ∧
    x.squeeze len = .ok (out, { x with sponge := t }) ∧
    Sponge.GivesInTurns xofRate (squeezePiece v) len s out.toList t

theorem Sound.of_cursor_lt {x : Xof v} (h : x.sponge.cursor < xofRate) : x.Sound where
  cursor_lt := h
  absorb_ends data :=
    have ⟨t, habsorb, _, hturns⟩ := absorb_of_lt h data
    ⟨t, habsorb, hturns⟩
  squeeze_ends len :=
    have ⟨s, out, t, hclose, hsqueeze, _, hturns⟩ := squeeze_of_lt h len
    ⟨s, out, t, hclose, hsqueeze, hturns⟩

theorem pad_of_lt {x : Xof v} (h : x.sponge.cursor < xofRate) :
    ∃ y, x.pad = .ok y ∧ y.sponge.cursor < xofRate := by
  have hpos : 0 < xofRate := by decide
  unfold pad
  split
  · obtain ⟨t, habsorb, hlt, -⟩ := absorb_of_lt h []
    exact ⟨_, habsorb, hlt⟩
  · split
    · exact ⟨x, rfl, h⟩
    · rw [State.permute_of_le _ (rounds_bounds v)]
      exact ⟨_, rfl, hpos⟩

/-- An XOF inside a block obeys every command, stays inside a block, and the readers that it hands
    out stand inside a block as well. -/
theorem obey_of_lt {x : Xof v} (h : x.sponge.cursor < xofRate) (cmd : Command) :
    ∃ reply next, x.obey cmd = .ok (reply, next) ∧
      (∀ r, reply = .reader r → r.source.sponge.cursor < xofRate) ∧
      next.sponge.cursor < xofRate := by
  have hpos : 0 < xofRate := by decide
  cases cmd with
  | absorb data =>
    obtain ⟨t, habsorb, hlt, -⟩ := absorb_of_lt h data
    exact ⟨.done, _, by rw [obey, habsorb]; rfl, fun _ => nofun, hlt⟩
  | squeeze len =>
    obtain ⟨s, out, t, -, hsqueeze, hlt, -⟩ := squeeze_of_lt h len
    exact ⟨.output out.toList, _, by rw [obey, hsqueeze]; rfl, fun _ => nofun, hlt⟩
  | pad =>
    obtain ⟨y, hpad, hlt⟩ := pad_of_lt h
    exact ⟨.done, y, by rw [obey, hpad]; rfl, fun _ => nofun, hlt⟩
  | reinit => exact ⟨.done, x.reinit, rfl, fun _ => nofun, hpos⟩
  | erase => exact ⟨.done, x.erase, rfl, fun _ => nofun, hpos⟩
  | finalize => exact ⟨.reader x.finalize, x, rfl, fun r hr => by cases hr; exact h, h⟩
  | finalizeReset =>
    exact ⟨.reader x.finalize, x.reinit, rfl, fun r hr => by cases hr; exact h, hpos⟩

theorem obey_keeps {x next : Xof v} {cmd : Command} {reply : Reply v}
    (h : x.sponge.cursor < xofRate) (hobey : x.obey cmd = .ok (reply, next)) :
    (∀ r, reply = .reader r → r.source.sponge.cursor < xofRate) ∧
      next.sponge.cursor < xofRate := by
  obtain ⟨reply', next', hobey', hreader, hlt⟩ := obey_of_lt h cmd
  rw [hobey'] at hobey
  cases hobey
  exact ⟨hreader, hlt⟩

/-- A reader inside a block gives out pieces of any lengths, and stays inside a block. -/
theorem Reader.readAll_of_lt {r : Reader v} (h : r.source.sponge.cursor < xofRate)
    (lens : List Nat) :
    ∃ outs next, r.readAll lens = .ok (outs, next) ∧ next.source.sponge.cursor < xofRate := by
  induction lens generalizing r with
  | nil => exact ⟨[], r, rfl, h⟩
  | cons len lens ih =>
    obtain ⟨s, out, t, -, hsqueeze, hlt, -⟩ := squeeze_of_lt h len
    have hread : r.read len = .ok (out, ⟨{ r.source with sponge := t }⟩) := by
      unfold read
      rw [hsqueeze]
      rfl
    obtain ⟨outs, next, hrest, hnext⟩ := ih (r := ⟨{ r.source with sponge := t }⟩) hlt
    refine ⟨out.toList :: outs, next, ?_, hnext⟩
    unfold readAll
    rw [hread]
    show (readAll _ lens).bind _ = _
    rw [hrest]
    rfl

/-- Over any session an XOF is never refused, and it is sound at every step. So is every reader that
    it hands out, whatever has been read from it. -/
theorem trace_sound (v : HashVariant) (len : Option Nat) (steps : List (Step Command)) :
    ∀ item ∈ trace obey (.start (build len : Xof v)) steps,
      (∀ fault, item.1 ≠ .refused fault) ∧ item.2.Sound ∧
        ∀ r, item.1 = .reply (.reader r) → ∀ lens, ∃ outs next,
          r.readAll lens = .ok (outs, next) ∧ next.source.Sound := by
  have hstart : (build len : Xof v).sponge.cursor < xofRate := by
    cases len <;> exact show 0 < xofRate by decide
  have hobeys : ∀ (x : Xof v) (cmd : Command), x.sponge.cursor < xofRate →
      ∃ reply next, x.obey cmd = .ok (reply, next) ∧ next.sponge.cursor < xofRate := by
    intro x cmd h
    obtain ⟨reply, next, hobey, -, hlt⟩ := obey_of_lt h cmd
    exact ⟨reply, next, hobey, hlt⟩
  intro item hitem
  obtain ⟨hrefused, -⟩ := trace_inv hobeys hstart hstart steps item hitem
  obtain ⟨hreply, hlt⟩ := trace_keeps (fun _ _ _ _ => obey_keeps) hstart hstart steps item hitem
  refine ⟨hrefused, .of_cursor_lt hlt, fun r hr lens => ?_⟩
  obtain ⟨outs, next, hread, hnext⟩ := Reader.readAll_of_lt (hreply _ hr r rfl) lens
  exact ⟨outs, next, hread, .of_cursor_lt hnext⟩

end Xof

/-! ### The PRF -/

namespace Prf

/-- A PRF that stands inside a block, and whose loops come to an end. -/
structure Sound (p : Prf) : Prop where
  cursor_lt : p.sponge.cursor < rateOf p.sponge.phase
  absorb_ends (data : Bytes) : ∃ t, p.absorb data = .ok ⟨t⟩ ∧
    Sponge.TakesInTurns rateIn (Sponge.absorbPiece rateIn rounds) data p.sponge.resume t
  squeeze_ends (len : Nat) : ∃ s out t, closeInput p.sponge = .ok s ∧
    p.squeeze len = .ok (out, ⟨t⟩) ∧ Sponge.GivesInTurns rateOut squeezePiece len s out.toList t

theorem Sound.of_cursor_lt {p : Prf} (h : p.sponge.cursor < rateOf p.sponge.phase) :
    p.Sound where
  cursor_lt := h
  absorb_ends data :=
    have ⟨t, habsorb, _, hturns⟩ := absorb_of_lt h data
    ⟨t, habsorb, hturns⟩
  squeeze_ends len :=
    have ⟨s, out, t, hclose, hsqueeze, _, hturns⟩ := squeeze_of_lt h len
    ⟨s, out, t, hclose, hsqueeze, hturns⟩

/-- A PRF inside a block obeys every command, and stays inside a block. -/
theorem obey_of_lt {p : Prf} (h : p.sponge.cursor < rateOf p.sponge.phase) (cmd : Command) :
    ∃ reply next, p.obey cmd = .ok (reply, next) ∧
      next.sponge.cursor < rateOf next.sponge.phase := by
  cases cmd with
  | absorb data =>
    obtain ⟨t, habsorb, hlt, -⟩ := absorb_of_lt h data
    exact ⟨none, ⟨t⟩, by rw [obey, habsorb]; rfl, hlt⟩
  | squeeze len =>
    obtain ⟨s, out, t, -, hsqueeze, hlt, -⟩ := squeeze_of_lt h len
    exact ⟨some out.toList, ⟨t⟩, by rw [obey, hsqueeze]; rfl, hlt⟩

/-- Over any session a PRF is never refused, and it is sound at every step. -/
theorem trace_sound (key : PrfKey) (len : Option Nat) (steps : List (Step Command)) :
    ∀ item ∈ trace obey (.start (build key len)) steps,
      (∀ fault, item.1 ≠ .refused fault) ∧ item.2.Sound := by
  have hstart : (build key len).sponge.cursor < rateOf (build key len).sponge.phase := by
    cases len <;> exact show 0 < rateIn by decide
  intro item hitem
  obtain ⟨hrefused, hlt⟩ :=
    trace_inv (fun _ cmd h => obey_of_lt h cmd) hstart hstart steps item hitem
  exact ⟨hrefused, .of_cursor_lt hlt⟩

/-- The short PRF turns down what is too long, and nothing else. -/
theorem prfShort_ne_fault (key : PrfKey) (data : Bytes) (len : Nat) (cause : Fault) :
    prfShort key data len ≠ .error (.fault cause) := by
  intro h
  by_cases hdata : data.length ≤ prfShortMaxInput
  · by_cases hlen : len ≤ prfShortMaxOutput
    · rw [prfShort_of_le key hdata hlen] at h
      cases h
    · unfold prfShort at h
      rw [if_neg (Nat.not_lt.2 hdata), if_pos (Nat.not_le.1 hlen)] at h
      cases h
  · unfold prfShort at h
    rw [if_pos (Nat.not_le.1 hdata)] at h
    cases h

end Prf

/-! ### The hash -/

namespace Hash

variable {v : HashVariant}

theorem finalize_of_lt {h : Hash v} (hopen : h.finalized = false)
    (hlt : h.xof.sponge.cursor < xofRate) :
    ∃ out next, h.finalize = .ok (out, next) ∧ next.xof.sponge.cursor < xofRate := by
  obtain ⟨s, out, t, -, hsqueeze, hlt', -⟩ := Xof.squeeze_of_lt hlt digestBytes
  refine ⟨out, ⟨{ h.xof with sponge := t }, true⟩, ?_, hlt'⟩
  simp only [finalize, hopen]
  show (Xof.squeeze _ _).bind _ = _
  rw [hsqueeze]
  rfl

/-- A hash that has not been finalized obeys every command, and its XOF stays inside a block. -/
theorem obey_of_lt {h : Hash v} (hopen : h.finalized = false)
    (hlt : h.xof.sponge.cursor < xofRate) (cmd : Command) :
    ∃ reply next, h.obey cmd = .ok (reply, next) ∧ next.xof.sponge.cursor < xofRate := by
  have hpos : 0 < xofRate := by decide
  obtain ⟨out, closed, hfinalize, hclosed⟩ := finalize_of_lt hopen hlt
  cases cmd with
  | update data =>
    obtain ⟨t, habsorb, hlt', -⟩ := Xof.absorb_of_lt hlt data
    refine ⟨none, { h with xof := { h.xof with sponge := t } }, ?_, hlt'⟩
    simp only [obey, update, hopen]
    show (Except.bind (Xof.absorb _ _) _).bind _ = _
    rw [habsorb]
    rfl
  | finalize => exact ⟨some out, closed, by rw [obey, hfinalize]; rfl, hclosed⟩
  | peek => exact ⟨some out, h, by rw [obey, hfinalize]; rfl, hlt⟩
  | finalizeReset =>
    exact ⟨some out, closed.reinit, by rw [obey, finalizeReset, hfinalize]; rfl, hpos⟩
  | reinit => exact ⟨none, h.reinit, rfl, hpos⟩

/-- Whatever a hash obeys, its XOF stays inside a block. -/
theorem obey_keeps {h next : Hash v} {cmd : Command} {reply : Option Digest}
    (hlt : h.xof.sponge.cursor < xofRate) (hobey : h.obey cmd = .ok (reply, next)) :
    next.xof.sponge.cursor < xofRate := by
  cases hfinal : h.finalized with
  | false =>
    obtain ⟨reply', next', hobey', hlt'⟩ := obey_of_lt hfinal hlt cmd
    rw [hobey'] at hobey
    cases hobey
    exact hlt'
  | true =>
    cases cmd with
    | reinit =>
      cases hobey
      exact show 0 < xofRate by decide
    | update data =>
      simp only [obey, update, hfinal] at hobey
      cases hobey
    | finalizeReset =>
      simp only [obey, finalizeReset, finalize, hfinal] at hobey
      cases hobey
    | _ =>
      simp only [obey, finalize, hfinal] at hobey
      cases hobey

/-- Over any session the XOF of a hash is sound at every step, and a hash that has not been finalized
    obeys whatever comes next. -/
theorem trace_sound (v : HashVariant) (steps : List (Step Command)) :
    ∀ item ∈ trace obey (.start (new : Hash v)) steps,
      item.2.xof.Sound ∧
        (item.2.finalized = false → ∀ cmd, ∃ answer, item.2.obey cmd = .ok answer) := by
  have hstart : (new : Hash v).xof.sponge.cursor < xofRate := show 0 < xofRate by decide
  have hkeeps : ∀ (h : Hash v) (cmd : Command) (reply : Option Digest) (next : Hash v),
      h.xof.sponge.cursor < xofRate → h.obey cmd = .ok (reply, next) →
      True ∧ next.xof.sponge.cursor < xofRate :=
    fun _ _ _ _ h hobey => ⟨trivial, obey_keeps h hobey⟩
  intro item hitem
  have hlt := (trace_keeps hkeeps hstart hstart steps item hitem).2
  refine ⟨.of_cursor_lt hlt, fun hopen cmd => ?_⟩
  obtain ⟨reply, next, hobey, -⟩ := obey_of_lt hopen hlt cmd
  exact ⟨_, hobey⟩

end Hash

/-! ### All modes -/

/-- No contract is broken inside a mode. Over any session, an XOF and a PRF are never refused, their
    cursors stand inside a block at every step, and their loops end, and so it is with the readers
    that an XOF hands out. A hash obeys every command until its digest is taken, the short PRF only
    turns down what is too long, and every cipher encrypts and decrypts whatever it is given. -/
theorem modes_keep_contracts :
    (∀ (v : HashVariant) (len : Option Nat) (steps : List (Step Xof.Command)),
      ∀ item ∈ trace Xof.obey (.start (Xof.build len : Xof v)) steps,
        (∀ fault, item.1 ≠ .refused fault) ∧ item.2.Sound ∧
          ∀ r, item.1 = .reply (.reader r) → ∀ lens, ∃ outs next,
            r.readAll lens = .ok (outs, next) ∧ next.source.Sound) ∧
    (∀ (key : PrfKey) (len : Option Nat) (steps : List (Step Prf.Command)),
      ∀ item ∈ trace Prf.obey (.start (Prf.build key len)) steps,
        (∀ fault, item.1 ≠ .refused fault) ∧ item.2.Sound) ∧
    (∀ (v : HashVariant) (steps : List (Step Hash.Command)),
      ∀ item ∈ trace Hash.obey (.start (Hash.new : Hash v)) steps,
        item.2.xof.Sound ∧
          (item.2.finalized = false → ∀ cmd, ∃ answer, item.2.obey cmd = .ok answer)) ∧
    (∀ (key : PrfKey) (data : Bytes) (len : Nat) (cause : Fault),
      prfShort key data len ≠ .error (.fault cause)) ∧
    (∀ (v : Aead.Variant) (c : Aead v) (nonce : Nonce) (ad data : Bytes) (tag : Tag),
      (∃ out, c.encrypt nonce ad data = .ok out) ∧
        ∃ outcome, c.decrypt nonce ad data tag = .ok outcome) ∧
    (∀ (v : Siv.Variant) (c : Siv v) (nonce : Nonce) (ad data : Bytes) (tag : Tag),
      (∃ out, c.encrypt nonce ad data = .ok out) ∧
        ∃ outcome, c.decrypt nonce ad data tag = .ok outcome) ∧
    ∀ (v : Aead.Variant) (n : Nat), minShares ≤ n ∧ n ≤ maxShares →
      ∀ (c : MaskedAead v n) (nonce : Nonce) (ad data : Bytes) (tag : Tag) (tape : Tape),
        (∃ out, (c.encrypt nonce ad data).run tape = .ok out) ∧
          ∃ outcome, (c.decrypt nonce ad data tag).run tape = .ok outcome := by
  refine ⟨Xof.trace_sound, Prf.trace_sound, Hash.trace_sound, Prf.prfShort_ne_fault, ?aead, ?siv,
    ?masked⟩
  case aead =>
    intro v c nonce ad data tag
    exact ⟨⟨_, c.encrypt_unchecked nonce ad data⟩, _, c.decrypt_unchecked nonce ad data tag⟩
  case siv =>
    intro v c nonce ad data tag
    exact ⟨⟨_, c.encrypt_eq nonce ad data⟩, _, c.decrypt_eq nonce ad data tag⟩
  case masked =>
    intro v n hn c nonce ad data tag tape
    obtain ⟨out, next, rest, -, -, hencrypt⟩ := MaskedAead.encrypt_run hn c nonce ad data tape
    obtain ⟨outcome, next', rest', -, -, hdecrypt⟩ :=
      MaskedAead.decrypt_run hn c nonce ad data tag tape
    exact ⟨⟨_, hencrypt⟩, _, hdecrypt⟩

theorem modes_keep_contracts_samples :
    (∃ outs next, (Xof.new : Xof .ascon).finalize.readAll [3, 8] = .ok (outs, next) ∧
      next.source.Sound) ∧
    ((Hash.new : Hash .asconA).finalized = false ∧
      ∀ cmd, ∃ answer, (Hash.new : Hash .asconA).obey cmd = .ok answer) ∧
    (minShares ≤ 3 ∧ 3 ≤ maxShares) ∧
    ∀ (c : MaskedAead .ascon80pq 3) (nonce : Nonce) (ad data : Bytes) (tag : Tag) (tape : Tape),
      (∃ out, (c.encrypt nonce ad data).run tape = .ok out) ∧
        ∃ outcome, (c.decrypt nonce ad data tag).run tape = .ok outcome := by
  obtain ⟨hxof, -, hhash, -, -, -, hmasked⟩ := modes_keep_contracts
  refine ⟨?_, ⟨rfl, ?_⟩, by decide, hmasked .ascon80pq 3 (by decide)⟩
  · exact (hxof .ascon none [.command .finalize] _ List.mem_cons_self).2.2 _ rfl [3, 8]
  · exact (hhash .asconA [.save] _ List.mem_cons_self).2 rfl

end Ascon
