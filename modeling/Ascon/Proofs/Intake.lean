import Ascon.Proofs.Aead.Padding
import Ascon.Proofs.Permutation
import Ascon.Proofs.Prf
import Ascon.Proofs.Xof

/-! # Inputs stay apart

  Two inputs of the same length that differ in one block lead to different
  states, whatever comes behind the block. Two inputs that differ in what is left
  behind their last full block do so once they have been padded, even if they are
  not of the same length.

  - The sponges and the mode take in their input in the same way (`State.taken`):
    full blocks with permutations between them, and then what is left, with the
    padding byte behind it or without.
  - A block that differs sets the state apart. From there on nothing that is
    taken in, and no permutation, brings two states together again.
  - What is left is shorter than the state, so the padding byte shows where it
    ends.
  - What a construction does when its input is closed, and the permutations
    behind it, lose nothing either. So the states stay apart for any amount of
    output.
-/

namespace Ascon

/-! ### Inputs that differ in one place -/

/-- Two inputs of the same length that differ in one block, or in a part of one. -/
inductive DifferInBlock (rate : Nat) : Bytes → Bytes → Prop
  | intro (front block block' behind : Bytes) (hfront : rate ∣ front.length)
      (hlen : block.length = block'.length) (hle : block.length ≤ rate) (hne : block ≠ block') :
      DifferInBlock rate (front ++ block ++ behind) (front ++ block' ++ behind)

/-- Two inputs that differ in what is left behind the last full block. -/
inductive DifferAtEnd (rate : Nat) : Bytes → Bytes → Prop
  | intro (front last last' : Bytes) (hfront : rate ∣ front.length) (hlt : last.length < rate)
      (hlt' : last'.length < rate) (hne : last ≠ last') :
      DifferAtEnd rate (front ++ last) (front ++ last')

namespace State

/-! ### Taking in -/

/-- The state that has taken in some data, with `tail` behind what is left of them. -/
def taken (rate rounds : Nat) (tail data : Bytes) (s : State) : State :=
  s.absorbBlocks rounds (Blocks.of rate data).full ^^^
    .holding 0 ((Blocks.of rate data).rest ++ tail)

theorem absorbBlocks_injective (rounds : Nat) (blocks : List Bytes) :
    Function.Injective (absorbBlocks rounds blocks) := by
  induction blocks with
  | nil => exact Function.injective_id
  | cons block blocks ih =>
    intro s t h
    have hpermuted : (s ^^^ holding 0 block).lastRounds rounds =
        (t ^^^ holding 0 block).lastRounds rounds := ih h
    exact XorGroup.eq_of_xor_right (lastRounds_injective rounds hpermuted)

/-- What is taken in does not bring two states together. -/
theorem taken_injective (rate rounds : Nat) (tail data : Bytes) :
    Function.Injective (taken rate rounds tail data) :=
  fun _ _ h => absorbBlocks_injective _ _ (XorGroup.eq_of_xor_right h)

section taken

variable {rate rounds : Nat} {tail : Bytes}

/-- Full blocks in front of some data are taken in first. -/
theorem taken_append (hrate : 0 < rate) {front : Bytes} (h : rate ∣ front.length) (data : Bytes)
    (s : State) :
    s.taken rate rounds tail (front ++ data) =
      (s.absorbBlocks rounds (Blocks.of rate front).full).taken rate rounds tail data := by
  rw [taken, Blocks.of_append_of_dvd hrate h, absorbBlocks_append]
  rfl

theorem taken_of_lt {data : Bytes} (h : data.length < rate) (s : State) :
    s.taken rate rounds tail data = s ^^^ holding 0 (data ++ tail) := by
  have hblocks : Blocks.of rate data = ⟨[], data⟩ := by
    rw [Blocks.of, Nat.div_eq_of_lt h]
    rfl
  rw [taken, hblocks]
  rfl

theorem taken_block (hrate : 0 < rate) {block : Bytes} (h : block.length = rate) (data : Bytes)
    (s : State) :
    s.taken rate rounds tail (block ++ data) =
      ((s ^^^ holding 0 block).lastRounds rounds).taken rate rounds tail data := by
  have hfull : ∀ b ∈ [block], b.length = rate := by
    intro b hb
    rw [List.mem_singleton.1 hb, h]
  have hnil : ([] : Bytes).length < rate := hrate
  have hblock : (Blocks.of rate block).full = [block] := by
    have hcut := Blocks.of_flatten_append hfull hnil
    rw [List.append_nil, List.flatten_singleton] at hcut
    rw [hcut]
  rw [taken_append hrate (by rw [h]), hblock]
  rfl

/-- Inputs that differ in one block lead to different states. -/
theorem taken_ne_of_block (hrate : 0 < rate ∧ rate ≤ 40) (htail : tail.length ≤ 1) {a b : Bytes}
    (h : DifferInBlock rate a b) (s : State) :
    s.taken rate rounds tail a ≠ s.taken rate rounds tail b := by
  obtain ⟨front, block, block', behind, hfront, hlen, hle, hne⟩ := h
  rw [List.append_assoc, List.append_assoc, taken_append hrate.1 hfront,
    taken_append hrate.1 hfront]
  generalize s.absorbBlocks rounds (Blocks.of rate front).full = t
  intro heq
  by_cases hshort : block.length + behind.length < rate
  -- both are part of what is left
  · have ha : (block ++ behind).length < rate := by
      rwa [List.length_append]
    have hb : (block' ++ behind).length < rate := by
      rwa [List.length_append, ← hlen]
    rw [taken_of_lt ha, taken_of_lt hb] at heq
    have hrest : block ++ behind ++ tail = block' ++ behind ++ tail := by
      apply holding_inj _ _ (XorGroup.eq_of_xor_left heq)
      · simp only [List.length_append, hlen]
      · rw [List.length_append]
        omega
    exact hne (List.append_cancel_right (List.append_cancel_right hrest))
  -- filled up they are blocks, and what is behind them no longer matters
  · let fill := behind.take (rate - block.length)
    let more := behind.drop (rate - block.length)
    have hfill : block.length + fill.length = rate := by
      rw [List.length_take]
      omega
    have hbehind : behind = fill ++ more := (List.take_append_drop _ _).symm
    have ha : (block ++ fill).length = rate := by
      rwa [List.length_append]
    have hb : (block' ++ fill).length = rate := by
      rwa [List.length_append, ← hlen]
    rw [hbehind, ← List.append_assoc, ← List.append_assoc, taken_block hrate.1 ha,
      taken_block hrate.1 hb] at heq
    have hblocks := lastRounds_injective rounds (taken_injective _ _ _ _ heq)
    have hsame : block ++ fill = block' ++ fill := by
      apply holding_inj _ _ (XorGroup.eq_of_xor_left hblocks)
      · rw [ha, hb]
      · rw [ha]
        exact hrate.2
    exact hne (List.append_cancel_right hsame)

/-- The padding byte is the last byte of a padded string that is not zero. So of two padded strings
    in the same state neither is longer. -/
theorem length_le_of_holding_pad {a b : Bytes} (ha : a.length < 40) (hb : b.length < 40)
    (heq : holding 0 (a ++ [padByte]) = holding 0 (b ++ [padByte])) : a.length ≤ b.length := by
  have hpadA : (a ++ [padByte]).length = a.length + 1 := List.length_append
  have hpadB : (b ++ [padByte]).length = b.length + 1 := List.length_append
  by_contra hlt
  have hbehind : ¬a.length < b.length + 1 := by omega
  have hbyte : (holding 0 (a ++ [padByte])).byte a.length =
      (holding 0 (b ++ [padByte])).byte a.length := by
    rw [heq]
  rw [byte_holding (by omega), byte_holding (by omega), hpadA, hpadB,
    if_pos (Nat.lt_succ_self _), if_neg hbehind] at hbyte
  simp [padByte] at hbyte

/-- A state holds one padded string, whatever its length. -/
theorem holding_pad_inj {a b : Bytes} (ha : a.length < 40) (hb : b.length < 40)
    (heq : holding 0 (a ++ [padByte]) = holding 0 (b ++ [padByte])) : a = b := by
  have hlen : a.length = b.length :=
    Nat.le_antisymm (length_le_of_holding_pad ha hb heq) (length_le_of_holding_pad hb ha heq.symm)
  have hsame : a ++ [padByte] = b ++ [padByte] := by
    apply holding_inj _ _ heq
    · simp only [List.length_append, hlen]
    · rw [List.length_append]
      exact ha
  exact List.append_cancel_right hsame

/-- Inputs that differ at their end lead to different states, once they are padded. -/
theorem taken_ne_of_end (hrate : 0 < rate ∧ rate ≤ 40) {a b : Bytes} (h : DifferAtEnd rate a b)
    (s : State) : s.taken rate rounds [padByte] a ≠ s.taken rate rounds [padByte] b := by
  obtain ⟨front, last, last', hfront, hlt, hlt', hne⟩ := h
  rw [taken_append hrate.1 hfront, taken_append hrate.1 hfront, taken_of_lt hlt,
    taken_of_lt hlt']
  intro heq
  exact hne (holding_pad_inj (by omega) (by omega) (XorGroup.eq_of_xor_left heq))

/-- Padded inputs lead to different states, whether they differ in one block or at their end. -/
theorem taken_pad_ne (hrate : 0 < rate ∧ rate ≤ 40) {a b : Bytes}
    (h : DifferInBlock rate a b ∨ DifferAtEnd rate a b) (s : State) :
    s.taken rate rounds [padByte] a ≠ s.taken rate rounds [padByte] b := by
  rcases h with hblock | hend
  · exact taken_ne_of_block hrate (Nat.le_refl _) hblock s
  · exact taken_ne_of_end hrate hend s

end taken

end State

/-! ### Sponges -/

/-- Steps that follow other ones, and are not refused, follow them over a whole list. -/
theorem foldlM_of_step {ε α β γ : Type} {f : β → α → Except ε β} {g : γ → α → γ} {w : γ → β}
    (h : ∀ c a, f (w c) a = .ok (w (g c a))) (as : List α) (c : γ) :
    as.foldlM f (w c) = .ok (w (as.foldl g c)) := by
  induction as generalizing c with
  | nil => rfl
  | cons a as ih =>
    rw [List.foldlM_cons, h, List.foldl_cons, ← ih]
    rfl

namespace Construction

variable (con : Construction)

/-- Where an unbuffered sponge stands once it has absorbed some data and given out pieces of some
    lengths. -/
def after (s : State) (data : Bytes) (lens : List Nat) : Stage :=
  lens.foldl (fun stage len => (con.squeeze len stage).2) (.absorbing s data)

variable {con}

theorem turned_injective (n : Nat) : Function.Injective (con.turned n) := by
  induction n with
  | zero => exact Function.injective_id
  | succ n ih => exact (State.lastRounds_injective con.rounds).comp ih

/-- A sponge that gives out pieces stays where it is but for the number of bytes. -/
theorem foldl_squeezing (closed : State) (count : Nat) (lens : List Nat) :
    lens.foldl (fun stage len => (con.squeeze len stage).2) (.squeezing closed count) =
      .squeezing closed (lens.foldl (· + ·) count) := by
  induction lens generalizing count with
  | nil => rfl
  | cons len lens ih => exact ih (count + len)

/-- Two inputs that differ in one block leave different states behind, and so do two inputs that
    differ at their end as soon as something has been squeezed. -/
theorem after_ne (hrate : 0 < con.rateIn ∧ con.rateIn ≤ stateBytes)
    (hclose : Function.Injective con.close) (s : State) {a b : Bytes} {lens : List Nat}
    (h : DifferInBlock con.rateIn a b ∨ DifferAtEnd con.rateIn a b ∧ lens ≠ []) :
    (con.sponge (con.after s a lens)).state ≠ (con.sponge (con.after s b lens)).state := by
  cases lens with
  | nil =>
    have hblock : DifferInBlock con.rateIn a b := by
      rcases h with h | ⟨-, hne⟩
      · exact h
      · exact absurd rfl hne
    have htaken (data : Bytes) : (con.sponge (con.after s data [])).state =
        s.taken con.rateIn con.rounds [] data := by
      rw [State.taken, List.append_nil]
      rfl
    rw [htaken, htaken]
    exact State.taken_ne_of_block hrate (Nat.zero_le _) hblock s
  | cons len lens =>
    have hpadded : s.taken con.rateIn con.rounds [padByte] a ≠
        s.taken con.rateIn con.rounds [padByte] b :=
      State.taken_pad_ne hrate (h.imp_right And.left) s
    have hafter (data : Bytes) : con.after s data (len :: lens) =
        .squeezing (con.close (s.taken con.rateIn con.rounds [padByte] data))
          (lens.foldl (· + ·) len) :=
      foldl_squeezing _ len lens
    rw [hafter, hafter]
    -- the same permutations are behind both
    exact fun heq => hpadded (hclose (turned_injective _ heq))

end Construction

/-- An XOF that has absorbed some data and then given out pieces of the given lengths. -/
def Xof.after {v : HashVariant} (x : Xof v) (data : Bytes) (lens : List Nat) :
    Except Fault (Xof v) := do
  lens.foldlM (fun y len => return (← y.squeeze len).2) (← x.absorb data)

/-- A PRF that has absorbed some data and then given out pieces of the given lengths. -/
def Prf.after (p : Prf) (data : Bytes) (lens : List Nat) : Except Fault Prf := do
  lens.foldlM (fun q len => return (← q.squeeze len).2) (← p.absorb data)

theorem Xof.after_eq {v : HashVariant} {x : Xof v} (hphase : x.sponge.phase = .absorbing)
    (hcursor : x.sponge.cursor = 0) (data : Bytes) (lens : List Nat) :
    x.after data lens = .ok (ofStage x.iv ((construction v).after x.sponge.state data lens)) := by
  have hx : x = ofStage x.iv (.absorbing x.sponge.state []) := by
    rw [ofStage, Construction.sponge_absorbing_nil, ← hcursor, ← hphase]
  have hstep (stage : Stage) (len : Nat) :
      (do return (← (ofStage x.iv stage : Xof v).squeeze len).2 : Except Fault (Xof v)) =
        .ok (ofStage x.iv ((construction v).squeeze len stage).2) := by
    rw [squeeze_ofStage]
    rfl
  have habsorb := absorb_ofStage (v := v) x.iv (.absorbing x.sponge.state []) data
  rw [← hx] at habsorb
  rw [after, habsorb]
  exact foldlM_of_step (w := ofStage x.iv) hstep lens (Stage.absorbing x.sponge.state data)

theorem Prf.after_eq {p : Prf} (hphase : p.sponge.phase = .absorbing) (hcursor : p.sponge.cursor = 0)
    (data : Bytes) (lens : List Nat) :
    p.after data lens = .ok (ofStage (construction.after p.sponge.state data lens)) := by
  have hp : p = ofStage (.absorbing p.sponge.state []) := by
    rw [ofStage, Construction.sponge_absorbing_nil, ← hcursor, ← hphase]
  have hstep (stage : Stage) (len : Nat) :
      (do return (← (ofStage stage).squeeze len).2 : Except Fault Prf) =
        .ok (ofStage (construction.squeeze len stage).2) := by
    rw [squeeze_ofStage]
    rfl
  have habsorb := absorb_ofStage (.absorbing p.sponge.state []) data
  rw [← hp] at habsorb
  rw [after, habsorb]
  exact foldlM_of_step (w := ofStage) hstep lens (Stage.absorbing p.sponge.state data)

/-! ### Associated data -/

namespace Aead

section duplex

variable {δ : Type} {m : Type → Type} [Monad m] [KeyedDuplex δ m]

/-- Takes in all of `data`, and does not pad them yet. -/
def takeIn (p : Parameters) (data : Bytes) (d : δ) : m δ := do
  let full ← feedFull p absorbBlock (Blocks.of p.rate data).full d
  let last ← absorbBlock (Blocks.of p.rate data).rest full.2
  return last.2

/-- To absorb data is to take them in and to put the padding byte behind them. -/
theorem absorb_eq_takeIn [LawfulMonad m] (p : Parameters) (data : Bytes) (d : δ) :
    absorb p data d = (do
      KeyedDuplex.addBytes [padByte] (Blocks.of p.rate data).rest.length (← takeIn p data d)) := by
  simp only [absorb, feed, takeIn, bind_assoc, pure_bind, bind_pure]

end duplex

variable {p : Parameters}

theorem takeIn_eq (hp : p.WellFormed) (data : Bytes) (d : UncheckedDuplex p.keySize) :
    takeIn p data d =
      ({ d with state := d.state.taken p.rate p.rounds [] data } :
        UncheckedDuplex p.keySize) := by
  have hrest := Blocks.length_rest_lt hp.rate_pos data
  have hrate : p.rate ≤ 40 := hp.rate_le
  have hfits : 0 + (Blocks.of p.rate data).rest.length ≤ 40 := by omega
  have hlen : ∀ block ∈ (Blocks.of p.rate data).full, block.length = p.rate :=
    Blocks.length_of_mem
  have hfull := feedFull_absorb hp hlen d
  have hrun : takeIn p data d = (absorbBlock (Blocks.of p.rate data).rest
      (feedFull p absorbBlock (Blocks.of p.rate data).full d).2).2 := rfl
  rw [hrun, hfull, State.taken, List.append_nil, State.xor_holding _ hfits]
  rfl

/-- A duplex that takes in data is not refused anything. -/
theorem takeIn_run (hp : p.WellFormed) (data : Bytes) (d : PlainDuplex p.keySize) :
    ∃ e, takeIn p data d = .ok e ∧ e.state = d.state.taken p.rate p.rounds [] data := by
  have hsim := PlainDuplex.simulation_unchecked d.key
  have hagree : Agree (PlainDuplex.Same d.key) (takeIn p data d)
      (takeIn p data d.unchecked : Id (UncheckedDuplex _)) := by
    apply agree_bind (agree_feedFull hsim hp (agreeOnBlocks_absorb hsim) Blocks.length_of_mem
      ⟨rfl, rfl⟩)
    intro full full' hfull
    have hrest := Blocks.length_rest_lt hp.rate_pos data
    have hrate : p.rate ≤ 40 := hp.rate_le
    apply agree_bind (agreeOnBlocks_absorb hsim (by rw [stateBytes]; omega) hfull.2)
    intro last last' hlast
    exact agree_pure hlast.2
  obtain ⟨e, hrun, hsame, -⟩ := hagree
  rw [takeIn_eq hp] at hsame
  exact ⟨e, hrun, congrArg UncheckedDuplex.state hsame⟩

theorem absorbAssociated_run (hp : p.WellFormed) (ad : Bytes) (d : PlainDuplex p.keySize) :
    ∃ e, absorbAssociated p ad d = .ok e ∧ e.state = associate p ad d.state := by
  have hsim := PlainDuplex.simulation_unchecked d.key
  obtain ⟨e, hrun, hsame, -⟩ := agree_absorbAssociated hsim hp ad ⟨rfl, rfl⟩
  rw [absorbAssociated_eq hp] at hsame
  exact ⟨e, hrun, congrArg UncheckedDuplex.state hsame⟩

/-- Associated data are taken in with the padding byte behind them. -/
theorem associate_eq (hp : p.WellFormed) {ad : Bytes} (had : ad ≠ []) (s : State) :
    associate p ad s = (s.taken p.rate p.rounds [padByte] ad).lastRounds p.rounds ^^^
      .holding (stateBytes - 1) [separatorByte] := by
  have hrest := Blocks.length_rest_lt hp.rate_pos ad
  have hrate : p.rate ≤ 40 := hp.rate_le
  have hpad : (Blocks.of p.rate ad).rest.length + [padByte].length ≤ 40 := by
    rw [List.length_singleton]
    omega
  have hfront : 0 + (Blocks.of p.rate ad).rest.length ≤ 40 := by omega
  have hsome : ad.isEmpty = false := by
    cases ad with
    | nil => exact absurd rfl had
    | cons b ad => rfl
  rw [associate, hsome, Blocks.padded_eq hp.rate_pos, State.absorbBlocks_concat,
    State.xor_holding_lastBlock _ hrest hrate, State.taken, State.xor_holding_append _ hpad,
    State.xor_holding _ hfront]
  rfl

/-- Inputs that differ in one block lead a duplex to different states. -/
theorem takeIn_apart (hp : p.WellFormed) (d : PlainDuplex p.keySize) {a b : Bytes}
    (h : DifferInBlock p.rate a b) :
    ∃ e e', takeIn p a d = .ok e ∧ takeIn p b d = .ok e' ∧ e.state ≠ e'.state := by
  obtain ⟨e, hrun, he⟩ := takeIn_run hp a d
  obtain ⟨e', hrun', he'⟩ := takeIn_run hp b d
  refine ⟨e, e', hrun, hrun', ?_⟩
  rw [he, he']
  exact State.taken_ne_of_block ⟨hp.rate_pos, hp.rate_le⟩ (Nat.zero_le _) h d.state

/-- So do associated data, even if they differ at their end only. -/
theorem absorbAssociated_apart (hp : p.WellFormed) (d : PlainDuplex p.keySize) {a b : Bytes}
    (ha : a ≠ []) (hb : b ≠ []) (h : DifferInBlock p.rate a b ∨ DifferAtEnd p.rate a b) :
    ∃ e e', absorbAssociated p a d = .ok e ∧ absorbAssociated p b d = .ok e' ∧
      e.state ≠ e'.state := by
  obtain ⟨e, hrun, he⟩ := absorbAssociated_run hp a d
  obtain ⟨e', hrun', he'⟩ := absorbAssociated_run hp b d
  have hpadded : d.state.taken p.rate p.rounds [padByte] a ≠
      d.state.taken p.rate p.rounds [padByte] b :=
    State.taken_pad_ne ⟨hp.rate_pos, hp.rate_le⟩ h d.state
  refine ⟨e, e', hrun, hrun', ?_⟩
  rw [he, he', associate_eq hp ha, associate_eq hp hb]
  exact fun heq =>
    hpadded (State.lastRounds_injective p.rounds (XorGroup.eq_of_xor_right heq))

end Aead

/-! ### All three -/

/-- What closing does to the state of a PRF can be undone. -/
theorem Prf.close_injective : Function.Injective Prf.construction.close :=
  fun _ _ h => XorGroup.eq_of_xor_right h

/-- Inputs that differ in one block lead to different states: an XOF and a PRF at the start of a
    block, before and after any output, and a plain duplex with associated data, before and after
    the padding. Inputs that differ in what is left behind their last full block lead to different
    states from the padding on. -/
theorem inputs_stay_apart :
    (∀ (v : HashVariant) (x : Xof v) (a b : Bytes) (lens : List Nat),
        x.sponge.phase = .absorbing → x.sponge.cursor = 0 →
        (DifferInBlock xofRate a b ∨ DifferAtEnd xofRate a b ∧ lens ≠ []) →
        ∃ y z, x.after a lens = .ok y ∧ x.after b lens = .ok z ∧
          y.sponge.state ≠ z.sponge.state) ∧
      (∀ (p : Prf) (a b : Bytes) (lens : List Nat),
        p.sponge.phase = .absorbing → p.sponge.cursor = 0 →
        (DifferInBlock Prf.rateIn a b ∨ DifferAtEnd Prf.rateIn a b ∧ lens ≠ []) →
        ∃ q r, p.after a lens = .ok q ∧ p.after b lens = .ok r ∧
          q.sponge.state ≠ r.sponge.state) ∧
      (∀ (v : Aead.Variant) (d : PlainDuplex v.keySize) (a b : Bytes),
        (DifferInBlock v.parameters.rate a b →
          ∃ e e', Aead.takeIn v.parameters a d = .ok e ∧ Aead.takeIn v.parameters b d = .ok e' ∧
            e.state ≠ e'.state) ∧
        (a ≠ [] → b ≠ [] →
          (DifferInBlock v.parameters.rate a b ∨ DifferAtEnd v.parameters.rate a b) →
          ∃ e e', Aead.absorbAssociated v.parameters a d = .ok e ∧
            Aead.absorbAssociated v.parameters b d = .ok e' ∧ e.state ≠ e'.state)) := by
  refine ⟨fun v x a b lens hphase hcursor h => ?_, fun p a b lens hphase hcursor h => ?_,
    fun v d a b => ⟨fun h => ?_, fun ha hb h => ?_⟩⟩
  · have hrate := (Xof.describes v).rateIn_bounds
    have hclose : Function.Injective (Xof.construction v).close := State.lastRounds_injective _
    exact ⟨_, _, Xof.after_eq hphase hcursor a lens, Xof.after_eq hphase hcursor b lens,
      Construction.after_ne hrate hclose x.sponge.state h⟩
  · have hrate := Prf.describes.rateIn_bounds
    exact ⟨_, _, Prf.after_eq hphase hcursor a lens, Prf.after_eq hphase hcursor b lens,
      Construction.after_ne hrate Prf.close_injective p.sponge.state h⟩
  · exact Aead.takeIn_apart v.wellFormed d h
  · exact Aead.absorbAssociated_apart v.wellFormed d ha hb h

/-- A byte and the same byte with a zero behind it, two strings with a common end, and two single
    bytes. -/
theorem inputs_stay_apart_samples :
    let x : Xof .asconA := .new
    let p : Prf := .new (.replicate 16 0)
    let d : PlainDuplex 16 := .new (.replicate 16 0)
    let v : Aead.Variant := .ascon128
    (∃ y z, x.after [1] [0, 3] = .ok y ∧ x.after [1, 0] [0, 3] = .ok z ∧
        y.sponge.state ≠ z.sponge.state) ∧
      (∃ q r, p.after [1, 2, 5] [] = .ok q ∧ p.after [3, 4, 5] [] = .ok r ∧
        q.sponge.state ≠ r.sponge.state) ∧
      ∃ e e', Aead.absorbAssociated v.parameters [1] d = .ok e ∧
        Aead.absorbAssociated v.parameters [2] d = .ok e' ∧ e.state ≠ e'.state := by
  intro x p d v
  obtain ⟨hxof, hprf, haead⟩ := inputs_stay_apart
  have hend : DifferAtEnd xofRate [1] [1, 0] :=
    .intro [] [1] [1, 0] (by decide) (by decide) (by decide) (by decide)
  have hblock : DifferInBlock Prf.rateIn [1, 2, 5] [3, 4, 5] :=
    .intro [] [1, 2] [3, 4] [5] (by decide) rfl (by decide) (by decide)
  have hbyte : DifferInBlock v.parameters.rate [1] [2] :=
    .intro [] [1] [2] [] (by decide) rfl (by decide) (by decide)
  exact ⟨hxof .asconA x [1] [1, 0] [0, 3] rfl rfl (.inr ⟨hend, by decide⟩),
    hprf p [1, 2, 5] [3, 4, 5] [] rfl rfl (.inl hblock),
    (haead v d [1] [2]).2 (by decide) (by decide) (.inl hbyte)⟩

end Ascon
