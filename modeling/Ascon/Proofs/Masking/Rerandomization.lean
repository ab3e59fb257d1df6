import Ascon.Proofs.Masking.Blinding
import Ascon.Proofs.Masking.Permutation
import Ascon.Proofs.Permutation
import Mathlib.SetTheory.Cardinal.Finite

/-! # The masked permutation spreads its outcome over all sharings

  A masked permutation ends in a sharing of the permuted state, whatever words it
  draws. Which sharing it is depends on the words alone: each is reached by as
  many sequences of words as any other.

  - Every step that draws words is coupled with the same step from another masked
    state. The outcomes can be made to differ by any sharing of the difference of
    their values.
  - Steps that draw nothing are additive bijections of the shares, up to a constant
    in the first share. A difference behind such a step is the image of a difference
    in front of it.
  - In a round, every word of the state is refreshed by the gate of its right
    neighbour, each gate with words of its own. So the five gates together refresh
    all words at once.
  - An exchange of words is a bijection, so both ends of it are counted alike. If the
    difference is kept in one share, the remaining shares do not see it.
-/

namespace Ascon

open Masking Sharing

/-! ### Sharings -/

namespace Sharing

variable {α : Type} {n : Nat} [XorGroup α]

/-- Every sharing arises share by share under an additive bijection, from a sharing of what its
    value arises from. -/
theorem exists_map_eq {f : α → α} (hadd : ∀ a b, f (a ^^^ b) = f a ^^^ f b)
    (hf : Function.Bijective f) {z : Sharing α n} {v : α} (hz : combine z = f v) :
    ∃ d : Sharing α n, d.map f = z ∧ combine d = v := by
  have hmap : (z.map (Function.surjInv hf.2)).map f = z := by
    ext i hi
    simp only [Vector.getElem_map, Function.surjInv_eq]
  refine ⟨z.map (Function.surjInv hf.2), hmap, hf.1 ?_⟩
  rw [← combine_map hadd, hmap, hz]

theorem exists_combine_eq (hn : 0 < n) (value : α) : ∃ s : Sharing α n, combine s = value :=
  ⟨ofRest value XorGroup.zeros, combine_ofRest hn value _⟩

/-- A constant that goes into the first share of a sum goes into the first share of a summand. -/
theorem onFirst_xor {f : α → α} {c : α} (hf : ∀ a, f a = a ^^^ c) (s t : Sharing α n) :
    onFirst f (s ^^^ t) = onFirst f s ^^^ t := by
  ext i hi
  simp only [onFirst, Vector.getElem_mapIdx, getElem_vector_xor]
  split
  · rw [hf, hf]
    ac_rfl
  · rfl

theorem map_xor {β : Type} [XorGroup β] {f : α → β} (hadd : ∀ a b, f (a ^^^ b) = f a ^^^ f b)
    (s t : Sharing α n) : (s ^^^ t).map f = s.map f ^^^ t.map f := by
  ext i hi
  simp only [Vector.getElem_map, getElem_vector_xor, hadd]

theorem ofRest_xor (value value' : α) (rest rest' : Vector α (n - 1)) :
    (ofRest (value ^^^ value') (rest ^^^ rest') : Sharing α n) =
      ofRest value rest ^^^ ofRest value' rest' := by
  ext i hi
  simp only [ofRest, Vector.getElem_ofFn, getElem_vector_xor, combine_xor]
  split
  · ac_rfl
  · rfl

/-- Every sharing is made from its value and the shares behind the first one. -/
theorem exists_ofRest_eq (hn : 0 < n) {s : Sharing α n} {value : α} (hs : combine s = value) :
    ∃ rest, ofRest value rest = s := by
  refine ⟨Vector.ofFn fun i => s[i.val + 1], eq_of_others ⟨0, hn⟩ (fun j hj => ?_)
    ((combine_ofRest hn _ _).trans hs.symm)⟩
  have hpos : j.val ≠ 0 := fun h => hj (Fin.ext h)
  have hval : j.val - 1 + 1 = j.val := by omega
  simp [ofRest, get_eq_getElem, hpos, hval]

/-- A sharing with all of its value in one share. -/
def single (i : Fin n) (value : α) : Sharing α n :=
  (XorGroup.zeros : Sharing α n).set i value i.isLt

theorem get_single (i j : Fin n) (value : α) :
    (single i value).get j = if j = i then value else XorGroup.zeros := by
  rw [single, get_set, get_eq_getElem, getElem_vector_zeros]

/-- What is added to share `i` is not seen in the others. -/
theorem get_xor_single (s : Sharing α n) {i j : Fin n} (hj : j ≠ i) (value : α) :
    (s ^^^ single i value).get j = s.get j := by
  rw [get_xor, get_single, if_neg hj, XorGroup.xor_zeros]

theorem combine_single (i : Fin n) (value : α) : combine (single i value) = value := by
  rw [single, combine_set, combine_zeros, get_eq_getElem, getElem_vector_zeros,
    XorGroup.zeros_left, XorGroup.zeros_left]

end Sharing

namespace MaskedState

variable {n : Nat}

/-! ### Refreshing -/

theorem assemble_xor (w0 w1 w2 w3 w4 : Vector UInt64 n) (z : Vector State n) :
    assemble (w0 ^^^ z.map State.x0) (w1 ^^^ z.map State.x1) (w2 ^^^ z.map State.x2)
        (w3 ^^^ z.map State.x3) (w4 ^^^ z.map State.x4) = assemble w0 w1 w2 w3 w4 ^^^ z := by
  ext i hi <;> simp [assemble, get_eq_getElem]

theorem coupled_freshWordShares (added : Vector UInt64 (n - 1)) :
    Draw.Coupled (fun a b => a = b ^^^ added) (n - 1) (freshWordShares n (~~~0))
      (freshWordShares n (~~~0)) := by
  have hdraw : freshWordShares n (~~~0) = (do
      let w ← Draw.words (n - 1)
      return w.map (· &&& ~~~0)) := rfl
  rw [hdraw]
  refine Draw.coupled_bind (Draw.coupled_words added) fun a b hab => Draw.coupled_pure ?_
  rw [hab]
  ext i hi
  simp

theorem coupled_freshShares (added : Vector State (n - 1)) :
    Draw.Coupled (fun a b => a = b ^^^ added) (5 * (n - 1)) (freshShares n allLanes)
      (freshShares n allLanes) := by
  have hcount : 5 * (n - 1) = n - 1 + (n - 1 + (n - 1 + (n - 1 + (n - 1 + 0)))) := by omega
  rw [hcount]
  refine Draw.coupled_bind (coupled_freshWordShares (added.map State.x0)) fun _ _ h0 => ?_
  refine Draw.coupled_bind (coupled_freshWordShares (added.map State.x1)) fun _ _ h1 => ?_
  refine Draw.coupled_bind (coupled_freshWordShares (added.map State.x2)) fun _ _ h2 => ?_
  refine Draw.coupled_bind (coupled_freshWordShares (added.map State.x3)) fun _ _ h3 => ?_
  refine Draw.coupled_bind (coupled_freshWordShares (added.map State.x4)) fun _ _ h4 => ?_
  apply Draw.coupled_pure
  rw [h0, h1, h2, h3, h4]
  exact assemble_xor _ _ _ _ _ added

theorem coupled_randomize (hn : 0 < n) (x x' : MaskedState n) {z : MaskedState n}
    (hz : combine z = unmask x ^^^ unmask x') :
    Draw.Coupled (fun y y' => y = y' ^^^ z) (5 * (n - 1)) (randomize x) (randomize x') := by
  have hnothing : combine (x ^^^ x' ^^^ z) = XorGroup.zeros := by
    rw [combine_xor, combine_xor, hz, unmask, unmask, XorGroup.cancel_self]
  obtain ⟨added, hadded⟩ := exists_ofRest_eq hn hnothing
  refine Draw.coupled_bind (coupled_freshShares added) fun rest rest' hrest =>
    Draw.coupled_pure ?_
  have hfresh := ofRest_xor XorGroup.zeros XorGroup.zeros rest' added
  rw [XorGroup.cancel_self, hadded, ← hrest] at hfresh
  unfold refreshWith
  rw [hfresh]
  exact XorGroup.exchange x x' _ z

/-! ### Rounds -/

theorem coupled_gates (hn : 0 < n) (x x' : MaskedState n) {z : MaskedState n}
    (hz : combine z = (unmask x).gates ^^^ (unmask x').gates) :
    Draw.Coupled (fun y y' => y = y' ^^^ z) (5 * (pairs n).length) (gates x) (gates x') := by
  have hcount : 5 * (pairs n).length = (pairs n).length + ((pairs n).length + ((pairs n).length +
      ((pairs n).length + ((pairs n).length + 0)))) := by omega
  have hword : ∀ (f : State → UInt64), (∀ s t, f (s ^^^ t) = f s ^^^ f t) →
      combine (z.map f) = f (unmask x).gates ^^^ f (unmask x').gates := by
    intro f hf
    rw [combine_map hf, hz, hf]
  have h0 := hword State.x0 State.xor_x0
  have h1 := hword State.x1 State.xor_x1
  have h2 := hword State.x2 State.xor_x2
  have h3 := hword State.x3 State.xor_x3
  have h4 := hword State.x4 State.xor_x4
  simp only [unmask, State.gates, ← combine_map State.xor_x0, ← combine_map State.xor_x1,
    ← combine_map State.xor_x2, ← combine_map State.xor_x3, ← combine_map State.xor_x4]
    at h0 h1 h2 h3 h4
  rw [hcount]
  refine Draw.coupled_bind (coupled_andNot hn _ _ _ _ h0) fun _ _ h0 => ?_
  refine Draw.coupled_bind (coupled_andNot hn _ _ _ _ h1) fun _ _ h1 => ?_
  refine Draw.coupled_bind (coupled_andNot hn _ _ _ _ h2) fun _ _ h2 => ?_
  refine Draw.coupled_bind (coupled_andNot hn _ _ _ _ h3) fun _ _ h3 => ?_
  refine Draw.coupled_bind (coupled_andNot hn _ _ _ _ h4) fun _ _ h4 => ?_
  apply Draw.coupled_pure
  rw [h0, h1, h2, h3, h4]
  exact assemble_xor _ _ _ _ _ z

theorem shiftWords_bijective : Function.Bijective State.shiftWords := by
  have hback : Function.LeftInverse
      (fun s : State => ⟨s.x4, s.x0, s.x1, s.x2, s.x3⟩) State.shiftWords := fun _ => rfl
  exact Finite.injective_iff_bijective.1 hback.injective

theorem coupled_chi (hn : 0 < n) (x x' : MaskedState n) {z : MaskedState n}
    (hz : combine z = (unmask x).chi ^^^ (unmask x').chi) :
    Draw.Coupled (fun y y' => y = y' ^^^ z) (5 * (pairs n).length) (chi x) (chi x') := by
  have hgates : combine (x ^^^ x' ^^^ z) =
      ((unmask x).gates ^^^ (unmask x').gates).shiftWords := by
    have hparts : (unmask x).chi ^^^ (unmask x').chi = unmask x ^^^ unmask x' ^^^
        ((unmask x).gates.shiftWords ^^^ (unmask x').gates.shiftWords) := by
      unfold State.chi
      ac_rfl
    rw [combine_xor, combine_xor, hz, hparts, State.shiftWords_xor]
    exact XorGroup.cancel_left _ _
  obtain ⟨d, hd, hvalue⟩ := exists_map_eq State.shiftWords_xor shiftWords_bijective hgates
  refine Draw.coupled_bind (coupled_gates hn x x' hvalue) fun t t' ht => Draw.coupled_pure ?_
  rw [ht, map_xor State.shiftWords_xor, hd]
  exact XorGroup.exchange x x' _ z

theorem coupled_round (hn : 0 < n) (r : Nat) (x x' : MaskedState n) {z : MaskedState n}
    (hz : combine z = (unmask x).round r ^^^ (unmask x').round r) :
    Draw.Coupled (fun y y' => y = y' ^^^ z) (5 * (pairs n).length) (round r x) (round r x') := by
  -- the linear layers behind the gates, without their constant
  have hmix : ∀ s t : State, (s ^^^ t).mixOut.diffuse = s.mixOut.diffuse ^^^ t.mixOut.diffuse := by
    intro s t
    rw [State.mixOut_xor, State.diffuse_xor]
  have hbij : Function.Bijective fun s : State => s.mixOut.diffuse :=
    Finite.injective_iff_bijective.1 (State.diffuse_injective.comp State.mixOut_injective)
  have hin : ∀ x : MaskedState n,
      unmask ((onFirst (State.addConstant (roundConstant r)) x).map State.mixIn) =
        ((unmask x).addConstant (roundConstant r)).mixIn := by
    intro x
    rw [← unmask_addConstant hn, unmask, combine_map State.mixIn_xor]
    rfl
  have hout : ∀ s t : State,
      s.mixOut.complementMiddle.diffuse ^^^ t.mixOut.complementMiddle.diffuse =
        (s ^^^ t).mixOut.diffuse := by
    intro s t
    rw [← State.diffuse_xor, complementMiddle_eq_xor, complementMiddle_eq_xor, State.mixOut_xor]
    -- the constant is there twice
    generalize (⟨0, 0, -1, 0, 0⟩ : State) = c
    congr 1
    calc s.mixOut ^^^ c ^^^ (t.mixOut ^^^ c) = s.mixOut ^^^ t.mixOut ^^^ (c ^^^ c) := by ac_rfl
      _ = s.mixOut ^^^ t.mixOut := by rw [XorGroup.xor_self, XorGroup.xor_zeros]
  rw [State.round, State.round, hout] at hz
  obtain ⟨d, hd, hvalue⟩ := exists_map_eq hmix hbij hz
  rw [← hin, ← hin] at hvalue
  refine Draw.coupled_bind (coupled_chi hn _ _ hvalue) fun y y' hy => Draw.coupled_pure ?_
  rw [hy, map_xor State.mixOut_xor, onFirst_xor complementMiddle_eq_xor,
    map_xor State.diffuse_xor, ← hd, Vector.map_map]
  rfl

/-- It takes only one round to spread the outcome over all sharings: whatever the rounds in front
    of it have led to, the last one can be made to end in any sharing of the right value. -/
theorem coupled_lastRounds (hn : 0 < n) (k : Nat) (x x' : MaskedState n) {z : MaskedState n}
    (hz : combine z = (unmask x).lastRounds (k + 1) ^^^ (unmask x').lastRounds (k + 1)) :
    Draw.Coupled (fun y y' => y = y' ^^^ z) (5 * (pairs n).length * (k + 1))
      (lastRounds (k + 1) x) (lastRounds (k + 1) x') := by
  induction k generalizing x x' with
  | zero =>
    rw [Nat.zero_add, Nat.mul_one, ← Nat.add_zero (5 * _)]
    exact Draw.coupled_bind (coupled_round hn _ x x' hz) fun _ _ h => Draw.coupled_pure h
  | succ k ih =>
    rw [Nat.mul_succ, Nat.add_comm]
    -- nothing is asked of the outcomes of the first round but that they share what they should
    obtain ⟨d, hd⟩ := exists_combine_eq hn
      ((unmask x).round (maxRounds - 1 - (k + 1)) ^^^ (unmask x').round (maxRounds - 1 - (k + 1)))
    have hfirst := (coupled_round hn _ x x' hd).of_yields (yields_round hn _ x)
      (yields_round hn _ x')
    refine Draw.coupled_bind hfirst fun y y' hy => ih y y' ?_
    rw [hy.2.1, hy.2.2]
    exact hz

/-! ### The permutation -/

/-- The number of words that the permutation draws: in front of its rounds one for every word of
    every share but the first, and in every round five for every two shares. -/
def permuteWords (n rounds : Nat) : Nat := 5 * (n - 1) + 5 * rounds * (n * (n - 1) / 2)

/-- What the permutation makes of a masked state when it draws the given words. -/
def permuteWith (x : MaskedState n) (rounds : Nat) (words : Fin (permuteWords n rounds) → UInt64) :
    Except Fault (MaskedState n) :=
  ((permute x rounds).run (.ofWords words)).map Prod.fst

variable {rounds : Nat}

/-- The permutation is a refresh with rounds behind it, for a number of rounds that it has. -/
theorem permute_run (hr : 1 ≤ rounds ∧ rounds ≤ maxRounds) (x : MaskedState n) (tape : Tape) :
    (permute x rounds).run tape = .ok ((randomize x >>= lastRounds rounds).run tape) := by
  unfold permute
  rw [checkRounds_of_le hr]
  rfl

theorem permuteWith_eq (hr : 1 ≤ rounds ∧ rounds ≤ maxRounds) (x : MaskedState n)
    (words : Fin (permuteWords n rounds) → UInt64) :
    permuteWith x rounds words = .ok ((randomize x >>= lastRounds rounds).made words) := by
  rw [permuteWith, permute_run hr]
  rfl

theorem coupled_permute (hn : 0 < n) (hr : 1 ≤ rounds) (x x' : MaskedState n) {z : MaskedState n}
    (hz : combine z = (unmask x).lastRounds rounds ^^^ (unmask x').lastRounds rounds) :
    Draw.Coupled (fun y y' => y = y' ^^^ z) (permuteWords n rounds)
      (randomize x >>= lastRounds rounds) (randomize x' >>= lastRounds rounds) := by
  obtain ⟨k, rfl⟩ : ∃ k, rounds = k + 1 := ⟨rounds - 1, by omega⟩
  obtain ⟨d, hd⟩ := exists_combine_eq hn (unmask x ^^^ unmask x')
  have hfirst := (coupled_randomize hn x x' hd).of_yields (yields_randomize hn x)
    (yields_randomize hn x')
  rw [permuteWords, Nat.mul_right_comm, ← length_pairs]
  refine Draw.coupled_bind hfirst fun y y' hy => coupled_lastRounds hn k y y' ?_
  rw [hy.2.1, hy.2.2]
  exact hz

/-- The permutation reads its words from the tape, and all else on the tape is the same to it. -/
theorem permute_reads (hn : 0 < n) (hr : 1 ≤ rounds ∧ rounds ≤ maxRounds) (x : MaskedState n)
    (tape : Tape) :
    (permute x rounds).run tape =
      (permuteWith x rounds (tape.upcoming _)).map (·, tape.skip (permuteWords n rounds)) := by
  obtain ⟨z, hz⟩ := exists_combine_eq hn
    ((unmask x).lastRounds rounds ^^^ (unmask x).lastRounds rounds)
  rw [permuteWith_eq hr, permute_run hr, (coupled_permute hn hr.1 x x hz).reads_made]
  rfl

/-- Two masked states, under words that are exchanged for one another, are permuted to sharings
    that differ by a given one, if only their values differ by its value. -/
theorem exists_exchange (hn : 0 < n) (hr : 1 ≤ rounds ∧ rounds ≤ maxRounds) (x x' : MaskedState n)
    {z : MaskedState n}
    (hz : combine z = (unmask x).lastRounds rounds ^^^ (unmask x').lastRounds rounds) :
    ∃ exchange : (Fin (permuteWords n rounds) → UInt64) ≃ (Fin (permuteWords n rounds) → UInt64),
      ∀ words, ∃ y, permuteWith x' rounds words = .ok y ∧
        permuteWith x rounds (exchange words) = .ok (y ^^^ z) := by
  obtain ⟨exchange, hexchange⟩ := (coupled_permute hn hr.1 x x' hz).exists_exchange
  refine ⟨exchange, fun words => ⟨_, permuteWith_eq hr x' words, ?_⟩⟩
  rw [permuteWith_eq hr, hexchange]

/-! ### Counting words -/

/-- Properties of the outcomes that belong together across a difference hold for equally many
    sequences of words. -/
theorem card_words_eq (hn : 0 < n) (hr : 1 ≤ rounds ∧ rounds ≤ maxRounds) (x x' : MaskedState n)
    {z : MaskedState n}
    (hz : combine z = (unmask x).lastRounds rounds ^^^ (unmask x').lastRounds rounds)
    {P Q : Except Fault (MaskedState n) → Prop} (hPQ : ∀ y, P (.ok (y ^^^ z)) ↔ Q (.ok y)) :
    Nat.card {words // P (permuteWith x rounds words)} =
      Nat.card {words // Q (permuteWith x' rounds words)} := by
  obtain ⟨exchange, houtcomes⟩ := exists_exchange hn hr x x' hz
  refine (Nat.card_congr (exchange.subtypeEquiv fun words => ?_)).symm
  obtain ⟨y, hy, hx⟩ := houtcomes words
  rw [hx, hy]
  exact (hPQ y).symm

/-- Whatever words are drawn, the outcome is a sharing of the permuted state. -/
theorem exists_permuteWith_eq (hn : 0 < n) (hr : 1 ≤ rounds ∧ rounds ≤ maxRounds)
    (x : MaskedState n) (words : Fin (permuteWords n rounds) → UInt64) :
    ∃ y, permuteWith x rounds words = .ok y ∧ unmask y = (unmask x).lastRounds rounds := by
  have hvalue : (randomize x >>= lastRounds rounds).Yields
      fun y => unmask y = (unmask x).lastRounds rounds := by
    refine yields_bind (yields_randomize hn x) fun y hy => ?_
    have h := yields_lastRounds hn rounds y
    rwa [hy] at h
  exact ⟨_, permuteWith_eq hr x words, hvalue (.ofWords words)⟩

/-- Sharings of the values that two masked states are permuted to are reached alike. -/
theorem card_outcome_eq (hn : 0 < n) (hr : 1 ≤ rounds ∧ rounds ≤ maxRounds)
    {x x' y y' : MaskedState n} (hy : unmask y = (unmask x).lastRounds rounds)
    (hy' : unmask y' = (unmask x').lastRounds rounds) :
    Nat.card {words // permuteWith x rounds words = .ok y} =
      Nat.card {words // permuteWith x' rounds words = .ok y'} := by
  have hz : combine (y ^^^ y') =
      (unmask x).lastRounds rounds ^^^ (unmask x').lastRounds rounds := by
    rw [combine_xor, ← hy, ← hy']
    rfl
  refine card_words_eq hn hr x x' hz (P := (· = .ok y)) (Q := (· = .ok y')) fun w => ?_
  rw [Except.ok.injEq, Except.ok.injEq]
  exact XorGroup.xor_difference_eq_iff w y y'

/-- The shares other than share `i`. -/
def others (i : Fin n) (y : MaskedState n) : {j // j ≠ i} → State := fun j => y.get j

theorem others_xor_single (i : Fin n) (y : MaskedState n) (s : State) :
    others i (y ^^^ single i s) = others i y :=
  funext fun j => get_xor_single y j.2 s

/-- The masked permutation re-randomizes the sharing perfectly. It reads a fixed number of words
    from the tape. Whatever they are, it ends in a sharing of the permuted state, and it ends in
    every such sharing for equally many sequences of words. So any two masked states lead to all
    shares but one with equal frequency: these say nothing about the state. -/
theorem permute_rerandomizes (hn : 0 < n) (hr : 1 ≤ rounds ∧ rounds ≤ maxRounds) :
    (∀ (x : MaskedState n) (tape : Tape),
      (permute x rounds).run tape =
        (permuteWith x rounds (tape.upcoming _)).map (·, tape.skip (permuteWords n rounds))) ∧
    (∃ count, 0 < count ∧ ∀ x : MaskedState n,
      (∀ words, ∃ y, permuteWith x rounds words = .ok y ∧
        (unmask x).permute rounds = .ok (unmask y)) ∧
      ∀ y, (unmask x).permute rounds = .ok (unmask y) →
        Nat.card {words // permuteWith x rounds words = .ok y} = count) ∧
    ∀ (x x' : MaskedState n) (i : Fin n) (seen : {j // j ≠ i} → State),
      Nat.card {words // (permuteWith x rounds words).map (others i) = .ok seen} =
        Nat.card {words // (permuteWith x' rounds words).map (others i) = .ok seen} := by
  have hpermute : ∀ x y : MaskedState n, (unmask x).permute rounds = .ok (unmask y) ↔
      unmask y = (unmask x).lastRounds rounds := by
    intro x y
    rw [State.permute_of_le _ hr, Except.ok.injEq, eq_comm]
  refine ⟨permute_reads hn hr, ?_, fun x x' i seen => ?_⟩
  · obtain ⟨y₀, hy₀, hvalue₀⟩ := exists_permuteWith_eq hn hr XorGroup.zeros fun _ => 0
    have hreached : Nonempty {words // permuteWith XorGroup.zeros rounds words = .ok y₀} :=
      ⟨_, hy₀⟩
    refine ⟨Nat.card {words // permuteWith XorGroup.zeros rounds words = .ok y₀}, Nat.card_pos,
      fun x => ⟨fun words => ?_, fun y hy => ?_⟩⟩
    · obtain ⟨y, hy, hvalue⟩ := exists_permuteWith_eq hn hr x words
      exact ⟨y, hy, (hpermute x y).2 hvalue⟩
    · exact card_outcome_eq hn hr ((hpermute x y).1 hy) hvalue₀
  · -- the difference of the values goes into the share that is left out
    have hz := combine_single i ((unmask x).lastRounds rounds ^^^ (unmask x').lastRounds rounds)
    refine card_words_eq hn hr x x' hz (P := fun y => y.map (others i) = .ok seen)
      (Q := fun y => y.map (others i) = .ok seen) fun y => ?_
    simp only [Except.map, others_xor_single]

theorem permute_rerandomizes_three :
    0 < 3 ∧ (1 ≤ 6 ∧ 6 ≤ maxRounds) ∧
    (∀ (x : MaskedState 3) (tape : Tape),
      (permute x 6).run tape =
        (permuteWith x 6 (tape.upcoming _)).map (·, tape.skip (permuteWords 3 6))) ∧
    (∃ count, 0 < count ∧ ∀ x : MaskedState 3,
      (∀ words, ∃ y, permuteWith x 6 words = .ok y ∧ (unmask x).permute 6 = .ok (unmask y)) ∧
      ∀ y, (unmask x).permute 6 = .ok (unmask y) →
        Nat.card {words // permuteWith x 6 words = .ok y} = count) ∧
    ∀ (x x' : MaskedState 3) (i : Fin 3) (seen : {j // j ≠ i} → State),
      Nat.card {words // (permuteWith x 6 words).map (others i) = .ok seen} =
        Nat.card {words // (permuteWith x' 6 words).map (others i) = .ok seen} :=
  ⟨by decide, by decide, permute_rerandomizes (by decide) (by decide)⟩

end MaskedState

end Ascon
