import Ascon.Proofs.Xof

/-! # Alignment to a block

  To pad an XOF is to fill its block with zeros. Nothing is added to the state for
  that, it is only permuted, since adding zeros would change nothing; and a
  squeezing XOF, which has no block to fill, absorbs the empty string.

  - Over any session an XOF stands where an unbuffered one stands, and it still has
    the initial value that it was started with (`trace_stage`). So it is enough to
    know what padding is on stages.
  - There it is the absorption of zeros (`pad_ofStage`). That padding twice is
    padding once, and that a message may have its zeros put behind it beforehand,
    follows from what is known of absorbing.
-/

namespace Ascon

/-! ### Zeros at the end of an input -/

namespace Construction

variable {con : Construction}

/-- Zeros that fill the last block of an input have it permuted away as it is. -/
theorem sponge_absorbing_zeros (hrate : 0 < con.rateIn ∧ con.rateIn ≤ stateBytes) (start : State)
    (input : Bytes) {zeros : Nat} (h : input.length % con.rateIn + zeros = con.rateIn) :
    con.sponge (.absorbing start (input ++ List.replicate zeros 0)) =
      ⟨(con.sponge (.absorbing start input)).state.lastRounds con.rounds, 0, .absorbing⟩ := by
  obtain ⟨hpos, hle⟩ := hrate
  have hrest := Blocks.length_rest con.rateIn input
  have hfill : (Blocks.of con.rateIn input).rest.length +
      (List.replicate zeros (0 : UInt8)).length = con.rateIn := by
    rw [hrest, List.length_replicate]
    exact h
  have hfits : (Blocks.of con.rateIn input).rest.length +
      (List.replicate zeros (0 : UInt8)).length ≤ 40 := by rwa [hfill]
  have hzeros : (Blocks.of con.rateIn input).rest.length + zeros ≤ 40 := by
    rwa [List.length_replicate] at hfits
  have hcursor : (input ++ List.replicate zeros (0 : UInt8)).length % con.rateIn = 0 := by
    rw [List.length_append, List.length_replicate, ← Nat.mod_add_mod, h, Nat.mod_self]
  rw [sponge, sponge, filled, filled, Blocks.of_append_of_eq hpos input hfill,
    State.absorbBlocks_concat, State.xor_holding_nil, State.xor_holding_append _ hfits,
    State.addFrom_zeros _ hzeros, hcursor]

end Construction

namespace Xof

open Session

variable {v : HashVariant}

/-! ### Padding -/

/-- The number of zeros that fill the block of an XOF. A squeezing one has no block to fill. -/
def gap (x : Xof v) : Nat :=
  match x.sponge.phase with
  | .absorbing => (xofRate - x.sponge.cursor) % xofRate
  | .squeezing => 0

/-- The XOF is absorbing and stands at the start of a block. -/
def Aligned (x : Xof v) : Prop := x.sponge.phase = .absorbing ∧ x.sponge.cursor = 0

/-- An XOF at the start of a block is not changed by padding. -/
theorem pad_of_aligned {x : Xof v} (h : x.Aligned) : x.pad = .ok x := by
  unfold pad
  rw [h.1]
  exact if_pos h.2

/-- On stages, padding is the absorption of the missing zeros. -/
theorem pad_ofStage (iv : UInt64) (stage : Stage) :
    (ofStage iv stage : Xof v).pad = .ok (ofStage iv
      ((construction v).absorb stage (List.replicate (ofStage iv stage : Xof v).gap 0))) := by
  cases stage with
  | squeezing closed count => exact absorb_ofStage iv (.squeezing closed count) []
  | absorbing start input =>
    have hlt : input.length % xofRate < xofRate := Nat.mod_lt _ (by decide)
    have hgap : (ofStage iv (.absorbing start input) : Xof v).gap =
        (xofRate - input.length % xofRate) % xofRate := rfl
    show (if input.length % xofRate = 0 then _ else _) = _
    by_cases hcursor : input.length % xofRate = 0
    -- the block has not been begun
    · rw [if_pos hcursor, hgap, hcursor, Nat.sub_zero, Nat.mod_self, Construction.absorb,
        List.replicate_zero, List.append_nil]
      rfl
    · have hfill : input.length % xofRate + (xofRate - input.length % xofRate) = xofRate := by
        omega
      have hrate := (describes v).rateIn_bounds
      have hzeros := Construction.sponge_absorbing_zeros hrate start input hfill
      rw [if_neg hcursor, State.permute_of_le _ (rounds_bounds v), hgap,
        Nat.mod_eq_of_lt (by omega), Construction.absorb, ofStage, ofStage, hzeros]
      rfl

/-- On stages, an XOF that has absorbed something stands as far behind its former place. -/
theorem place_absorb (iv : UInt64) (stage : Stage) (data : Bytes) :
    let y : Xof v := ofStage iv ((construction v).absorb stage data)
    y.sponge.phase = .absorbing ∧ y.sponge.cursor =
      ((ofStage iv stage : Xof v).sponge.resume.cursor + data.length) % xofRate := by
  cases stage with
  | absorbing start input =>
    refine ⟨rfl, ?_⟩
    show (input ++ data).length % xofRate = (input.length % xofRate + data.length) % xofRate
    rw [List.length_append, Nat.mod_add_mod]
  | squeezing closed count =>
    refine ⟨rfl, ?_⟩
    show data.length % xofRate = (0 + data.length) % xofRate
    rw [Nat.zero_add]

/-- The gap and what is there of the block make up a block. -/
theorem resume_cursor_add_gap (iv : UInt64) (stage : Stage) :
    ((ofStage iv stage : Xof v).sponge.resume.cursor + (ofStage iv stage : Xof v).gap) % xofRate =
      0 := by
  cases stage with
  | absorbing start input =>
    show (input.length % xofRate + (xofRate - input.length % xofRate) % xofRate) % xofRate = 0
    unfold xofRate
    omega
  | squeezing closed count => rfl

/-! ### What an XOF can be led to -/

/-- A command leads from a stage to a stage, and leaves the initial value as it is. -/
theorem obey_stage {iv : UInt64} {stage : Stage} {cmd : Command} {reply : Reply v} {next : Xof v}
    (h : (ofStage iv stage : Xof v).obey cmd = .ok (reply, next)) :
    ∃ stage', next = ofStage iv stage' := by
  have hstart : ∀ s : State, (ofStage iv (.absorbing s []) : Xof v) = ⟨iv, s, 0, .absorbing⟩ :=
    fun s => congrArg (Xof.mk iv) (Construction.sponge_absorbing_nil s)
  cases cmd with
  | absorb data =>
    rw [obey, absorb_ofStage] at h
    cases h
    exact ⟨_, rfl⟩
  | squeeze len =>
    rw [obey, squeeze_ofStage] at h
    cases h
    exact ⟨_, rfl⟩
  | pad =>
    rw [obey, pad_ofStage] at h
    cases h
    exact ⟨_, rfl⟩
  | finalize =>
    cases h
    exact ⟨stage, rfl⟩
  -- these begin a new input
  | reinit =>
    cases h
    exact ⟨_, (hstart _).symm⟩
  | erase =>
    cases h
    exact ⟨_, (hstart _).symm⟩
  | finalizeReset =>
    cases h
    exact ⟨_, (hstart _).symm⟩

/-- Over any session an XOF keeps its initial value, and stands where an unbuffered one stands. -/
theorem trace_stage (v : HashVariant) (len : Option Nat) (steps : List (Step Command)) :
    ∀ item ∈ trace obey (.start (build len : Xof v)) steps,
      ∃ stage, item.2 = ofStage (build len : Xof v).iv stage := by
  have hstart : ∃ stage, (build len : Xof v) = ofStage (build len : Xof v).iv stage :=
    ⟨_, build_eq len⟩
  have hkeeps : ∀ (x : Xof v) (cmd : Command) (reply : Reply v) (next : Xof v),
      (∃ stage, x = ofStage (build len : Xof v).iv stage) → x.obey cmd = .ok (reply, next) →
        True ∧ ∃ stage, next = ofStage (build len : Xof v).iv stage := by
    intro x cmd reply next hx hobey
    obtain ⟨stage, rfl⟩ := hx
    exact ⟨trivial, obey_stage hobey⟩
  intro item hitem
  exact (trace_keeps hkeeps hstart hstart steps item hitem).2

/-! ### Padding at any point of a session -/

theorem trace_command {x y : Xof v} {kept : Xof v} {cmd : Command} {reply : Reply v}
    (h : x.obey cmd = .ok (reply, y)) (later : List (Step Command)) :
    trace obey ⟨x, kept⟩ (.command cmd :: later) =
      (.reply reply, y) :: trace obey ⟨y, kept⟩ later := by
  rw [trace, perform_of_ok (s := ⟨x, kept⟩) h]

section stage

variable {x : Xof v} {iv : UInt64} {stage : Stage}

/-- To pad is to absorb the missing zeros. -/
theorem pad_eq_absorb (hx : x = ofStage iv stage) :
    ∃ y, x.pad = .ok y ∧ x.absorb (List.replicate x.gap 0) = .ok y ∧ y.Aligned := by
  subst hx
  have hplace := place_absorb (v := v) iv stage
    (List.replicate (ofStage iv stage : Xof v).gap 0)
  have hfull := resume_cursor_add_gap (v := v) iv stage
  rw [List.length_replicate] at hplace
  exact ⟨_, pad_ofStage iv stage, absorb_ofStage iv stage _, hplace.1, hplace.2.trans hfull⟩

/-- Behind a message that begins a block, to pad is to have its zeros absorbed with it. -/
theorem pad_behind_message (hx : x = ofStage iv stage)
    (hstart : x.sponge.phase = .squeezing ∨ x.sponge.cursor = 0) (data : Bytes) :
    ∃ y z, x.absorb data = .ok y ∧ y.pad = .ok z ∧ x.absorb
      (data ++ List.replicate ((xofRate - data.length % xofRate) % xofRate) 0) = .ok z := by
  have hresume : x.sponge.resume.cursor = 0 := by
    unfold Sponge.resume
    split
    · next hphase => exact hstart.resolve_left (by rw [hphase]; decide)
    · rfl
  subst hx
  have habsorb := absorb_ofStage (v := v) iv stage data
  obtain ⟨hphase, hcursor⟩ := place_absorb (v := v) iv stage data
  obtain ⟨z, hpad, hzeros, -⟩ :=
    pad_eq_absorb (x := (ofStage iv ((construction v).absorb stage data) : Xof v)) rfl
  refine ⟨_, z, habsorb, hpad, ?_⟩
  unfold gap at hzeros
  rw [hphase] at hzeros
  -- the message ends where its length says
  simp only [hcursor, hresume, Nat.zero_add] at hzeros
  rw [absorb_append, habsorb]
  exact hzeros

end stage

/-- At any point of any session, to pad an XOF is to absorb zeros up to the end of its block, or
    nothing if it is squeezing. This leaves it absorbing at the start of a block, where to pad again
    changes nothing. And when a message that begins a block has been absorbed and padded, everything
    that comes later is as if its zeros had been absorbed with it. -/
theorem pad_fills_with_zeros (v : HashVariant) (len : Option Nat) (steps : List (Step Command)) :
    ∀ item ∈ trace obey (.start (build len : Xof v)) steps,
      (∃ y, item.2.pad = .ok y ∧ item.2.absorb (List.replicate item.2.gap 0) = .ok y ∧
        y.pad = .ok y ∧ y.sponge.phase = .absorbing ∧ y.sponge.cursor = 0) ∧
      (item.2.sponge.phase = .squeezing ∨ item.2.sponge.cursor = 0 → ∀ data,
        let zeros : Bytes := List.replicate ((xofRate - data.length % xofRate) % xofRate) 0
        ∃ y z, item.2.absorb data = .ok y ∧ y.pad = .ok z ∧
          item.2.absorb (data ++ zeros) = .ok z ∧
          ∀ later, (trace obey (.start item.2)
              (.command (.absorb data) :: .command .pad :: later)).tail =
            trace obey (.start item.2) (.command (.absorb (data ++ zeros)) :: later)) := by
  intro item hitem
  obtain ⟨stage, hstage⟩ := trace_stage v len steps item hitem
  obtain ⟨y, hpad, hgap, haligned⟩ := pad_eq_absorb hstage
  refine ⟨⟨y, hpad, hgap, pad_of_aligned haligned, haligned⟩, fun hstart data => ?_⟩
  intro zeros
  obtain ⟨y, z, habsorb, hpad, hmerged⟩ := pad_behind_message hstage hstart data
  refine ⟨y, z, habsorb, hpad, hmerged, fun later => ?_⟩
  have hfirst : item.2.obey (.absorb data) = .ok (.done, y) := by
    rw [obey, habsorb]
    rfl
  have hsecond : y.obey .pad = .ok (.done, z) := by
    rw [obey, hpad]
    rfl
  have hboth : item.2.obey (.absorb (data ++ zeros)) = .ok (.done, z) := by
    rw [obey, hmerged]
    rfl
  rw [Session.start, trace_command hfirst, trace_command hsecond, trace_command hboth]
  rfl

/-- A message of three bytes is followed by five zeros. -/
theorem pad_fills_with_zeros_three_bytes :
    let x : Xof .ascon := new
    (x.sponge.phase = .squeezing ∨ x.sponge.cursor = 0) ∧
      ∃ y z, x.absorb [97, 98, 99] = .ok y ∧ y.pad = .ok z ∧
        x.absorb [97, 98, 99, 0, 0, 0, 0, 0] = .ok z := by
  intro x
  have hstart : x.sponge.phase = .squeezing ∨ x.sponge.cursor = 0 := .inr rfl
  obtain ⟨-, hmessage⟩ := pad_fills_with_zeros .ascon none [.save] _ List.mem_cons_self
  obtain ⟨y, z, habsorb, hpad, hzeros, -⟩ := hmessage hstart [97, 98, 99]
  exact ⟨hstart, y, z, habsorb, hpad, hzeros⟩

end Xof

end Ascon
