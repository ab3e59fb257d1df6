import Ascon.Masking.Command
import Ascon.Proofs.Masking.Sharing
import Ascon.Proofs.Masking.Words

/-! # What operations in place come to

  For a caller who goes back to a copy when he is refused, an operation on the shares
  where they lie is a function of the shares and the tape.

  - The loop over the words that a window touches is a pass over all five words: a
    word in which the window has no bit is left as it is, and nothing is drawn for it
    (`touched_eq_filter`, `run_forM_filter`).
  - To erase a window word by word is to set its bytes to zero in every share
    (`run_eraseInPlace`). To split and combine the words of some data one after the
    other is to combine the data in a fresh sharing of the whole window
    (`run_addBytes`).
  - So each command in place comes to what `apply` makes of the state
    (`Place.outcome_obey`). What a refusal leaves in place is another matter, since
    that caller does not look at it.
-/

namespace Ascon

namespace InPlace

variable {σ α : Type}

/-- A loop over those members of a list for which there is something to do is a pass over the whole
    list. -/
theorem run_forM_filter {p : α → Bool} {f : α → InPlace σ PUnit} {g : σ → α → σ}
    (hdone : ∀ a, p a = true → ∀ s, (f a).run s = .ok () (g s a))
    (hskip : ∀ a, p a = false → ∀ s, g s a = s) (as : List α) (s : σ) :
    ((as.filter p).forM f).run s = .ok () (as.foldl g s) := by
  induction as generalizing s with
  | nil => rfl
  | cons a as ih =>
    rw [List.filter_cons, List.foldl_cons]
    split
    · next ha => exact (run_bind_of_ok (hdone a ha s)).trans (ih _)
    · next ha =>
      rw [hskip a (Bool.eq_false_iff.2 ha)]
      exact ih s

end InPlace

namespace MaskedState

open Masking Sharing

variable {n : Nat}

/-! ### On the shares -/

theorem modifyWord_same {f : UInt64 → UInt64} (hf : ∀ v, f v = v) (s : State) (w : Nat) :
    s.modifyWord w f = s := by
  match w with
  | 0 | 1 | 2 | 3 | 4 | _ + 5 => simp [State.modifyWord, hf]

theorem addWord_zeros (x : MaskedState n) (w : Nat) : addWord x w XorGroup.zeros = x := by
  apply Vector.ext
  intro i hi
  rw [addWord, Vector.getElem_zipWith, getElem_vector_zeros]
  exact modifyWord_same (fun _ => UInt64.xor_zero) x[i] w

theorem clearWord_zero (x : MaskedState n) (w : Nat) : clearWord x w 0 = x := by
  have hsame : ∀ v : UInt64, v &&& ~~~0 = v := fun v => by simp
  unfold clearWord
  rw [funext fun s => modifyWord_same hsame s w]
  exact Vector.map_id x

/-- The bits of a window, cleared word by word, are its bytes. -/
theorem foldl_clearWord {offset len : Nat} (h : offset + len ≤ 40) (x : MaskedState n) :
    (List.range 5).foldl (fun x w => clearWord x w (lanes offset len w)) x =
      x.map (·.setFrom offset (List.replicate len 0)) := by
  have hrange : List.range 5 = [0, 1, 2, 3, 4] := rfl
  simp only [hrange, List.foldl_cons, List.foldl_nil, clearWord, Vector.map_map]
  apply Vector.map_congr_left
  intro s _
  have hword := State.word_erase s h
  exact State.ext (hword 0).symm (hword 1).symm (hword 2).symm (hword 3).symm (hword 4).symm

/-- Erasing a window that fits sets its bytes to zero in every share. -/
theorem run_eraseInPlace {offset len : Nat} (h : offset + len ≤ 40) (x : MaskedState n) :
    (eraseInPlace offset len).run x = .ok () (x.map (·.setFrom offset (List.replicate len 0))) := by
  unfold eraseInPlace
  -- a word that is not touched would not be changed either
  rw [checkWindow_of_le h, InPlace.check_ok, pure_bind, touched_eq_filter h, ← foldl_clearWord h]
  apply InPlace.run_forM_filter (fun _ _ _ => rfl)
  intro w hw x
  have hzero : lanes offset len w = 0 := by simpa using hw
  simp only [hzero, clearWord_zero]

theorem result_eraseInPlace (x : MaskedState n) (offset len : Nat) :
    (eraseInPlace offset len).result x = overwriteZeroes x offset len := by
  by_cases hle : offset + len ≤ 40
  · unfold overwriteZeroes
    rw [InPlace.result, InPlace.outcome_of_ok (run_eraseInPlace hle x), checkWindow_of_le hle]
    rfl
  · unfold eraseInPlace overwriteZeroes
    rw [checkWindow_of_lt (Nat.lt_of_not_le hle)]
    rfl

theorem result_addSharesInPlace (x : MaskedState n) (shares : Vector Bytes n) (offset : Nat) :
    (addSharesInPlace shares offset).result x = addShares x shares offset := by
  unfold addSharesInPlace addShares
  cases checkShareLengths shares with
  | error fault => rfl
  | ok u =>
    cases checkWindow offset (leadLength shares) with
    | error fault => rfl
    | ok u => rfl

theorem result_overwriteShares (x : MaskedState n) (shares : Vector Bytes n) (offset : Nat) :
    (overwriteShares shares offset).result x = (do
      addShares (← overwriteZeroes x offset (leadLength shares)) shares offset) := by
  unfold overwriteShares
  rw [InPlace.result_bind, result_eraseInPlace]
  exact bind_congr fun y => result_addSharesInPlace y shares offset

/-- A sharing is added to a state word by word. -/
theorem xor_eq_addWords (x : MaskedState n) (value : State)
    (w0 w1 w2 w3 w4 : Vector UInt64 (n - 1)) :
    x ^^^ ofRest value (assemble w0 w1 w2 w3 w4) =
      ((((x.addWord 0 (ofRest value.x0 w0)).addWord 1 (ofRest value.x1 w1)).addWord 2
        (ofRest value.x2 w2)).addWord 3 (ofRest value.x3 w3)).addWord 4 (ofRest value.x4 w4) := by
  -- the sharing, seen through one of its words
  have hword : ∀ {f : State → UInt64} {w : Vector UInt64 (n - 1)},
      (∀ s t, f (s ^^^ t) = f s ^^^ f t) → (assemble w0 w1 w2 w3 w4).map f = w →
      ∀ i (hi : i < n), f (x[i] ^^^ (ofRest value (assemble w0 w1 w2 w3 w4) : MaskedState n)[i]) =
        f x[i] ^^^ (ofRest (f value) w : Sharing UInt64 n)[i] := by
    intro f w hf hw i hi
    rw [hf, ← hw, ← map_ofRest hf, Vector.getElem_map]
  apply Vector.ext
  intro i hi
  simp only [addWord, Vector.getElem_zipWith, getElem_vector_xor]
  apply State.ext
  · exact hword State.xor_x0 (map_x0_assemble _ _ _ _ _) i hi
  · exact hword State.xor_x1 (map_x1_assemble _ _ _ _ _) i hi
  · exact hword State.xor_x2 (map_x2_assemble _ _ _ _ _) i hi
  · exact hword State.xor_x3 (map_x3_assemble _ _ _ _ _) i hi
  · exact hword State.xor_x4 (map_x4_assemble _ _ _ _ _) i hi

/-! ### With a tape -/

namespace Place

/-- A place where word `w` of `value` has been added, in a fresh sharing on the given bits. -/
def withWord (lanes value : State) (p : Place n) (w : Nat) : Place n :=
  let drawn := (freshWordShares n (lanes.word w)).run p.tape
  { p with state := addWord p.state w (ofRest (value.word w) drawn.1), tape := drawn.2 }

/-- Word by word, a state is added in a fresh sharing of its words. -/
theorem foldl_withWord (lanes value : State) (p : Place n) :
    (List.range 5).foldl (withWord lanes value) p =
      let drawn := (freshShares n lanes).run p.tape
      { p with state := p.state ^^^ ofRest value drawn.1, tape := drawn.2 } := by
  have hrange : List.range 5 = [0, 1, 2, 3, 4] := rfl
  -- the tape behind each word is the tape in front of the next one
  let r0 := (freshWordShares n lanes.x0).run p.tape
  let r1 := (freshWordShares n lanes.x1).run r0.2
  let r2 := (freshWordShares n lanes.x2).run r1.2
  let r3 := (freshWordShares n lanes.x3).run r2.2
  let r4 := (freshWordShares n lanes.x4).run r3.2
  have hdrawn : (freshShares n lanes).run p.tape =
      (assemble r0.1 r1.1 r2.1 r3.1 r4.1, r4.2) := rfl
  rw [hdrawn, hrange]
  dsimp only
  rw [xor_eq_addWords]
  rfl

/-- A word of the state in which the window has no bit is left as it is. -/
theorem withWord_of_word_eq_zero {lanes value : State} {w : Nat} (hl : lanes.word w = 0)
    (hv : value.word w = 0) (p : Place n) : withWord lanes value p w = p := by
  unfold withWord
  rw [hl, hv]
  show { p with state := addWord p.state w (ofRest XorGroup.zeros XorGroup.zeros) } = p
  rw [ofRest_zeros, addWord_zeros]

/-- Data for a window that fits are combined in a fresh sharing of the whole window. -/
theorem run_addBytes {data : Bytes} {offset : Nat} (h : offset + data.length ≤ 40) (p : Place n) :
    (addBytes data offset).run p =
      let drawn := (freshShares n (windowLanes offset data.length)).run p.tape
      .ok () { p with
        state := p.state ^^^ ofRest (State.zero.addFrom offset data) drawn.1
        tape := drawn.2 } := by
  have hlanes := word_windowLanes h
  have hpack := State.word_zero_addFrom h
  have hloop : (addBytes data offset).run p = .ok () ((List.range 5).foldl
      (withWord (windowLanes offset data.length) (State.zero.addFrom offset data)) p) := by
    unfold addBytes
    rw [checkWindow_of_le h, InPlace.check_ok, pure_bind, touched_eq_filter h]
    refine InPlace.run_forM_filter (fun w hw p => ?_) (fun w hw => ?_) _ p
    · have hused : lanes offset data.length w ≠ 0 := of_decide_eq_true hw
      unfold withWord freshWordShares split
      rw [hlanes, hpack, if_neg hused, pack_and_lanes]
      rfl
    -- nothing is drawn for a word without bits of the window, and nothing is added to it
    · have hzero : lanes offset data.length w = 0 := by simpa using hw
      have hempty : pack data offset w = 0 := by
        rw [← pack_and_lanes, hzero, UInt64.and_zero]
      exact withWord_of_word_eq_zero ((hlanes w).trans hzero) ((hpack w).trans hempty)
  rw [hloop, foldl_withWord]

/-! ### Outcomes -/

section shares

variable {op : InPlace (MaskedState n) Unit} {p : Place n} {x : MaskedState n}

theorem run_onShares_of_ok (h : op.run p.state = .ok () x) :
    (onShares op).run p = .ok () { p with state := x } :=
  InPlace.run_onPart_of_ok h

/-- What is left of the shares is left with the tape and the buffer as they were. -/
theorem run_onShares_of_error {fault : Fault} (h : op.run p.state = .error fault x) :
    (onShares op).run p = .error fault { p with state := x } :=
  InPlace.run_onPart_of_error h

end shares

/-- In place, the operation does what `f` does to a state, and leaves the buffer alone. -/
def Carries (op : InPlace (Place n) Unit) (f : MaskedState n → CheckedDraw (MaskedState n)) :
    Prop :=
  ∀ p, op.outcome p =
    ((f p.state).run p.tape).map fun r => ((), { p with state := r.1, tape := r.2 })

theorem carries_onShares {op : InPlace (MaskedState n) Unit}
    {f : MaskedState n → Except Fault (MaskedState n)} (h : ∀ x, op.result x = f x) :
    Carries (onShares op) fun x => liftM (f x) := by
  intro p
  show _ = ((liftM (f p.state) : CheckedDraw (MaskedState n)).run p.tape).map _
  rw [← h, InPlace.result]
  cases hrun : op.run p.state with
  | error fault x =>
    rw [InPlace.outcome_of_error (run_onShares_of_error hrun), InPlace.outcome_of_error hrun]
    rfl
  | ok u x =>
    rw [InPlace.outcome_of_ok (run_onShares_of_ok hrun), InPlace.outcome_of_ok hrun]
    rfl

theorem carries_bind {op op' : InPlace (Place n) Unit}
    {f g : MaskedState n → CheckedDraw (MaskedState n)} (hop : Carries op f)
    (hop' : Carries op' g) : Carries (op >>= fun _ => op') fun x => f x >>= g := by
  intro p
  rw [InPlace.outcome_bind, hop p, StateT.run_bind]
  cases (f p.state).run p.tape with
  | error fault => rfl
  | ok r => exact hop' _

theorem carries_redraw (f : MaskedState n → Draw (MaskedState n)) :
    Carries (redraw f) fun x => liftM (f x) := fun _ => rfl

/-- A check that comes first is made on nothing yet, so it may come first in both. -/
theorem carries_check (check : Except Fault Unit) {op : InPlace (Place n) Unit}
    {f : MaskedState n → CheckedDraw (MaskedState n)} (hop : Carries op f) :
    Carries (InPlace.check check >>= fun _ => op) fun x =>
      (liftM check : CheckedDraw Unit) >>= fun _ => f x := by
  intro p
  cases check with
  | error fault => rfl
  | ok u => exact hop p

theorem carries_permute (rounds : Nat) :
    Carries (permute rounds) fun x : MaskedState n => x.permute rounds := by
  refine carries_check _ ?_
  exact carries_bind (carries_redraw _) (carries_redraw _)

theorem carries_remask : Carries remask fun x : MaskedState n => mask n (unmask x) :=
  carries_check _ (carries_redraw _)

theorem carries_addBytes (data : Bytes) (offset : Nat) :
    Carries (addBytes data offset) fun x : MaskedState n => x.addBytes data offset := by
  intro p
  by_cases hle : offset + data.length ≤ 40
  · unfold MaskedState.addBytes
    rw [InPlace.outcome_of_ok (run_addBytes hle p), checkWindow_of_le hle]
    rfl
  · unfold addBytes MaskedState.addBytes
    rw [checkWindow_of_lt (Nat.lt_of_not_le hle)]
    rfl

theorem carries_overwriteBytes (data : Bytes) (offset : Nat) :
    Carries (overwriteBytes data offset) fun x : MaskedState n => x.overwriteBytes data offset :=
  carries_bind (carries_onShares fun x => result_eraseInPlace x offset data.length)
    (carries_addBytes data offset)

/-- A command in place comes to what it makes of the state, and its output gets into the buffer. -/
theorem outcome_obey (p : Place n) (c : Command n) :
    (obey c).outcome p = ((apply p.state c).run p.tape).map fun r =>
      (r.1.1, ⟨⟨r.1.2, r.2⟩, r.1.1.output?.getD p.buffer⟩) := by
  have hdone : ∀ {op : InPlace (Place n) Unit} {f : MaskedState n → CheckedDraw (MaskedState n)},
      Carries op f → (do op; return .done : InPlace (Place n) Reply).outcome p =
        ((do return (Reply.done, ← f p.state) : CheckedDraw (Reply × MaskedState n)).run p.tape).map
          fun r => (r.1.1, ⟨⟨r.1.2, r.2⟩, r.1.1.output?.getD p.buffer⟩) := by
    intro op f hop
    rw [InPlace.outcome_bind, hop p, StateT.run_bind]
    cases (f p.state).run p.tape with
    | error fault => rfl
    | ok r => rfl
  cases c with
  | permute rounds => exact hdone (carries_permute rounds)
  | randomize => exact hdone (carries_redraw randomize)
  | remask => exact hdone carries_remask
  | add data offset => exact hdone (carries_addBytes data offset)
  | overwrite data offset => exact hdone (carries_overwriteBytes data offset)
  | zero offset len => exact hdone (carries_onShares fun x => result_eraseInPlace x offset len)
  | erase => rfl
  | addShares shares offset =>
    exact hdone (carries_onShares fun x => result_addSharesInPlace x shares offset)
  | overwriteShares shares offset => exact hdone (carries_onShares fun _ => rfl)
  | extract offset len =>
    rw [obey, apply, extractBytes, MaskedState.extractBytes]
    cases checkWindow offset len with
    | error fault => rfl
    | ok u => rfl
  | extractAdd data room offset =>
    rw [obey, apply, extractAdd, MaskedState.extractAdd]
    cases checkRoom data room with
    | error fault => rfl
    | ok u =>
      cases checkWindow offset data.length with
      | error fault => rfl
      | ok u => rfl
  | count => rfl

end Place

/-- What a masked state and its tape do with a command, as a function of the state. -/
theorem Holder.obey_eq (h : Holder n) (c : Command n) :
    h.obey c = ((apply h.state c).run h.tape).map fun r => (r.1.1, ⟨r.1.2, r.2⟩) := by
  unfold Holder.obey
  rw [Place.outcome_obey]
  cases (apply h.state c).run h.tape with
  | error fault => rfl
  | ok r => rfl

end MaskedState

end Ascon
