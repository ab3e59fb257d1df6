import Ascon.Proofs.Agreement
import Ascon.Xor
import Mathlib.Logic.Equiv.Fin.Basic

/-! # Coupled draws

  Two draws have equally distributed outcomes if the words that the one reads
  can be exchanged for the words that the other reads in such a way that the
  outcomes correspond. Such an exchange is a bijection of all sequences of words,
  so no sequence is counted twice and none is left out.

  - `Draw.Reads` says that a draw reads so many words and what it makes of them,
    wherever on whatever tape it starts.
  - `Draw.Coupled` says that two draws read equally many words, and that there is
    an exchange under which their outcomes are related. As with agreement, one
    rule for `pure` and one for `>>=` take it through a whole definition. How the
    later words are exchanged may depend on what the earlier ones have led to.
  - The exchange from which all others are built adds fixed words to the words
    that are read.
  - `Draw.made` is what a draw makes of given words, so that the exchange can be
    spoken of without a tape.
-/

namespace Ascon

/-! ### Words of a tape -/

namespace Tape

/-- The next `k` words of a tape. -/
def upcoming (tape : Tape) (k : Nat) : Fin k → UInt64 := fun i => tape.word (tape.drawn + i)

/-- The tape with `k` more words read. -/
def skip (tape : Tape) (k : Nat) : Tape := { tape with drawn := tape.drawn + k }

/-- The tape that begins with the given words and goes on with zeros. -/
def ofWords {k : Nat} (words : Fin k → UInt64) : Tape :=
  ⟨fun i => if h : i < k then words ⟨i, h⟩ else 0, 0⟩

@[simp] theorem upcoming_ofWords {k : Nat} (words : Fin k → UInt64) :
    (ofWords words).upcoming k = words := by
  funext i
  simp [upcoming, ofWords]

/-- What comes next on a tape is what comes first, and what comes then. -/
theorem upcoming_add (tape : Tape) (k l : Nat) :
    tape.upcoming (k + l) = Fin.appendEquiv k l (tape.upcoming k, (tape.skip k).upcoming l) := by
  show _ = Fin.append _ _
  funext i
  refine Fin.addCases (fun i => ?_) (fun i => ?_) i
  · rw [Fin.append_left]
    rfl
  · rw [Fin.append_right]
    simp [upcoming, skip, Nat.add_assoc]

theorem skip_skip (tape : Tape) (k l : Nat) : (tape.skip k).skip l = tape.skip (k + l) := by
  simp [skip, Nat.add_assoc]

end Tape

namespace Draw

variable {α β γ δ : Type} {k l : Nat}

theorem run_bind (x : Draw α) (f : α → Draw β) (tape : Tape) :
    (x >>= f).run tape = (f (x.run tape).1).run (x.run tape).2 := rfl

/-- The draw reads the next `k` words of the tape, and makes of them what `f` does. -/
def Reads (x : Draw α) (f : (Fin k → UInt64) → α) : Prop :=
  ∀ tape, x.run tape = (f (tape.upcoming k), tape.skip k)

theorem reads_pure (a : α) : (pure a : Draw α).Reads fun _ : Fin 0 → UInt64 => a :=
  fun _ => rfl

/-- Only what a draw can make of its words matters to the draw behind it. -/
theorem reads_bind {x : Draw α} {f : (Fin k → UInt64) → α} {y : α → Draw β}
    {g : (Fin k → UInt64) → (Fin l → UInt64) → β} (hx : x.Reads f)
    (hy : ∀ words, (y (f words)).Reads (g words)) :
    (x >>= y).Reads fun words =>
      let parts := (Fin.appendEquiv k l).symm words
      g parts.1 parts.2 := by
  intro tape
  rw [run_bind, hx tape, hy, tape.upcoming_add, tape.skip_skip]
  simp only [Equiv.symm_apply_apply]

theorem reads_words (k : Nat) : (words k).Reads fun w => Vector.ofFn w :=
  fun _ => rfl

/-- Both draws read `k` words, and under some exchange of these their outcomes are related. -/
def Coupled (R : α → β → Prop) (k : Nat) (x : Draw α) (y : Draw β) : Prop :=
  ∃ f g, x.Reads (k := k) f ∧ y.Reads (k := k) g ∧
    ∃ exchange : (Fin k → UInt64) ≃ (Fin k → UInt64), ∀ words, R (f (exchange words)) (g words)

variable {R : α → β → Prop} {S : γ → δ → Prop} {x : Draw α} {y : Draw β}

theorem coupled_pure {a : α} {b : β} (h : R a b) : Coupled R 0 (pure a) (pure b) :=
  ⟨_, _, reads_pure a, reads_pure b, Equiv.refl _, fun _ => h⟩

/-- Draws that go on from related outcomes in a coupled way are coupled. The later words are
    exchanged in the way that belongs to the outcomes so far. -/
theorem coupled_bind {f : α → Draw γ} {g : β → Draw δ} (hx : Coupled R k x y)
    (hf : ∀ a b, R a b → Coupled S l (f a) (g b)) : Coupled S (k + l) (x >>= f) (y >>= g) := by
  obtain ⟨fx, gy, hfx, hgy, exchange, hR⟩ := hx
  choose F G hF hG next hS using fun words => hf _ _ (hR words)
  -- on the left, the words that the later draw follows have been exchanged
  have hleft : ∀ words, (f (fx words)).Reads (F (exchange.symm words)) := by
    intro words
    have h := hF (exchange.symm words)
    rwa [exchange.apply_symm_apply] at h
  let parts := Fin.appendEquiv (α := UInt64) k l
  refine ⟨_, _, reads_bind hfx hleft, reads_bind hgy hG,
    (parts.symm.trans (Equiv.prodShear exchange next)).trans parts, fun words => ?_⟩
  have h := hS (parts.symm words).1 (parts.symm words).2
  simpa [parts] using h

/-- What always holds of the outcomes may be added to how they are related. -/
theorem Coupled.of_yields (h : Coupled R k x y) {P : α → Prop} {Q : β → Prop}
    (hx : x.Yields P) (hy : y.Yields Q) : Coupled (fun a b => R a b ∧ P a ∧ Q b) k x y := by
  obtain ⟨f, g, hf, hg, exchange, hR⟩ := h
  have hP : ∀ words, P (f words) := by
    intro words
    have hrun := hx (.ofWords words)
    rwa [hf, Tape.upcoming_ofWords] at hrun
  have hQ : ∀ words, Q (g words) := by
    intro words
    have hrun := hy (.ofWords words)
    rwa [hg, Tape.upcoming_ofWords] at hrun
  exact ⟨f, g, hf, hg, exchange, fun words => ⟨hR words, hP _, hQ _⟩⟩

/-- Adding fixed words to the words that are read is an exchange. -/
theorem coupled_words (added : Vector UInt64 k) :
    Coupled (fun a b => a = b ^^^ added) k (words k) (words k) := by
  have hcancel : Function.Involutive fun (w : Fin k → UInt64) i => w i ^^^ added.get i :=
    fun w => funext fun i => XorGroup.cancel_right _ _
  refine ⟨_, _, reads_words k, reads_words k, hcancel.toPerm, fun w => ?_⟩
  show Vector.ofFn (fun i => w i ^^^ added.get i) = _
  ext i hi
  simp [Vector.get]

/-! ### What a draw makes of given words -/

/-- What a draw makes of the given words. -/
def made (x : Draw α) (words : Fin k → UInt64) : α := (x.run (.ofWords words)).1

theorem Reads.made_eq {f : (Fin k → UInt64) → α} (h : x.Reads f) : x.made = f := by
  funext words
  rw [made, h, Tape.upcoming_ofWords]

theorem Coupled.reads_made (h : Coupled R k x y) : x.Reads (x.made (k := k)) := by
  obtain ⟨f, _, hf, _⟩ := h
  rwa [hf.made_eq]

/-- Coupled draws make related outcomes of words that are exchanged for one another. -/
theorem Coupled.exists_exchange (h : Coupled R k x y) :
    ∃ exchange : (Fin k → UInt64) ≃ (Fin k → UInt64),
      ∀ words, R (x.made (exchange words)) (y.made words) := by
  obtain ⟨f, g, hf, hg, exchange, hR⟩ := h
  refine ⟨exchange, fun words => ?_⟩
  rw [hf.made_eq, hg.made_eq]
  exact hR words

end Draw

end Ascon
