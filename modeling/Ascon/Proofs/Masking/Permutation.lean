import Ascon.Masking.State
import Ascon.Proofs.Masking.Gate
import Ascon.Proofs.Masking.Words

/-! # The masked permutation computes the permutation

  Every step of a masked round is compared with the same step of a plain one,
  on the state that is shared. The linear layers are additive and may be
  applied share by share, constants go into one share alone, and the five gates
  are right because one gate is.
-/

namespace Ascon.MaskedState

open Masking Sharing

variable {n : Nat}

/-- A sharing of a state, with its words given as sharings, shares the state of the shared words. -/
theorem combine_assemble (w0 w1 w2 w3 w4 : Sharing UInt64 n) :
    combine (assemble w0 w1 w2 w3 w4) =
      ⟨combine w0, combine w1, combine w2, combine w3, combine w4⟩ := by
  -- every word is taken off the shares additively
  have hword : ∀ (f : State → UInt64) (w : Sharing UInt64 n),
      (∀ s t, f (s ^^^ t) = f s ^^^ f t) → (assemble w0 w1 w2 w3 w4).map f = w →
      f (combine (assemble w0 w1 w2 w3 w4)) = combine w := by
    intro f w hf hw
    rw [← combine_map hf, hw]
  ext1
  · exact hword State.x0 w0 State.xor_x0 (map_x0_assemble _ _ _ _ _)
  · exact hword State.x1 w1 State.xor_x1 (map_x1_assemble _ _ _ _ _)
  · exact hword State.x2 w2 State.xor_x2 (map_x2_assemble _ _ _ _ _)
  · exact hword State.x3 w3 State.xor_x3 (map_x3_assemble _ _ _ _ _)
  · exact hword State.x4 w4 State.xor_x4 (map_x4_assemble _ _ _ _ _)

/-! ### Constants -/

theorem addConstant_eq_xor (c : UInt64) (s : State) :
    s.addConstant c = s ^^^ ⟨0, 0, c, 0, 0⟩ := by
  ext1 <;> simp [State.addConstant]

theorem complementMiddle_eq_xor (s : State) :
    s.complementMiddle = s ^^^ ⟨0, 0, -1, 0, 0⟩ := by
  ext1 <;> simp [State.complementMiddle]

theorem unmask_addConstant (hn : 0 < n) (c : UInt64) (x : MaskedState n) :
    unmask (onFirst (State.addConstant c) x) = (unmask x).addConstant c := by
  unfold unmask
  rw [combine_onFirst hn (addConstant_eq_xor c), addConstant_eq_xor]

theorem unmask_complementMiddle (hn : 0 < n) (x : MaskedState n) :
    unmask (onFirst State.complementMiddle x) = (unmask x).complementMiddle := by
  unfold unmask
  rw [combine_onFirst hn complementMiddle_eq_xor, complementMiddle_eq_xor]

/-! ### Rounds -/

theorem yields_gates (hn : 0 < n) (x : MaskedState n) :
    (gates x).Yields fun y => unmask y = (unmask x).gates := by
  have h0 : combine (x.map State.x0) = (unmask x).x0 := combine_map State.xor_x0 x
  have h1 : combine (x.map State.x1) = (unmask x).x1 := combine_map State.xor_x1 x
  have h2 : combine (x.map State.x2) = (unmask x).x2 := combine_map State.xor_x2 x
  have h3 : combine (x.map State.x3) = (unmask x).x3 := combine_map State.xor_x3 x
  have h4 : combine (x.map State.x4) = (unmask x).x4 := combine_map State.xor_x4 x
  refine yields_bind (yields_andNot hn _ _) fun t0 ht0 => ?_
  refine yields_bind (yields_andNot hn _ _) fun t1 ht1 => ?_
  refine yields_bind (yields_andNot hn _ _) fun t2 ht2 => ?_
  refine yields_bind (yields_andNot hn _ _) fun t3 ht3 => ?_
  refine yields_bind (yields_andNot hn _ _) fun t4 ht4 => ?_
  apply yields_pure
  show combine (assemble t0 t1 t2 t3 t4) = (unmask x).gates
  rw [combine_assemble, ht0, ht1, ht2, ht3, ht4, h0, h1, h2, h3, h4, State.gates]

theorem yields_chi (hn : 0 < n) (x : MaskedState n) :
    (chi x).Yields fun y => unmask y = (unmask x).chi := by
  refine yields_bind (yields_gates hn x) fun t ht => ?_
  apply yields_pure
  unfold State.chi
  rw [← ht, unmask, combine_xor, combine_map State.shiftWords_xor]
  rfl

/-- A masked round computes a round. -/
theorem yields_round (hn : 0 < n) (r : Nat) (x : MaskedState n) :
    (round r x).Yields fun y => unmask y = (unmask x).round r := by
  have hin : unmask ((onFirst (State.addConstant (roundConstant r)) x).map State.mixIn) =
      ((unmask x).addConstant (roundConstant r)).mixIn := by
    rw [← unmask_addConstant hn, unmask, combine_map State.mixIn_xor]
    rfl
  refine yields_bind (yields_chi hn _) fun y hy => ?_
  have hout : unmask (y.map State.mixOut) = (unmask y).mixOut := combine_map State.mixOut_xor y
  apply yields_pure
  unfold State.round
  rw [← hin, ← hy, ← hout, ← unmask_complementMiddle hn, unmask,
    combine_map State.diffuse_xor]
  rfl

theorem yields_lastRounds (hn : 0 < n) (k : Nat) (x : MaskedState n) :
    (lastRounds k x).Yields fun y => unmask y = (unmask x).lastRounds k := by
  induction k generalizing x with
  | zero => exact yields_pure rfl
  | succ k ih =>
    refine yields_bind (yields_round hn _ x) fun y hy => ?_
    -- the rest of the rounds start from a sharing of what the first one gives
    have h := ih y
    rw [hy] at h
    exact h

/-! ### The permutation -/

theorem yields_randomize (hn : 0 < n) (x : MaskedState n) :
    (randomize x).Yields fun y => unmask y = unmask x :=
  fun _ => combine_refreshWith hn x _

/-- The masked permutation computes the permutation, and it is refused for the same numbers of
    rounds. -/
theorem agree_permute (hn : 0 < n) (x : MaskedState n) (rounds : Nat) :
    Agree (fun y s => unmask y = s) (permute x rounds) ((unmask x).permute rounds) := by
  apply agree_bind (agree_lift (agree_refl (checkRounds rounds)))
  intro _ _ _
  apply agree_draw_bind (yields_randomize hn x)
  intro y hy
  have h := yields_lastRounds hn rounds y
  rw [hy] at h
  exact agree_draw h

end Ascon.MaskedState
