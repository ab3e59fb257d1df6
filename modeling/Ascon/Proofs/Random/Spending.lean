import Ascon.Proofs.Random.Coupling

/-! # How many words a computation draws

  The place that is reached on the tape shows how many words have been drawn,
  and anyone who can watch the source of randomness sees as much. A computation
  that always draws equally many words shows nothing that way.

  - `Draw.Spends` says that a draw reads so many words, whatever they are.
    `CheckedDraw.Spends` says in addition that the computation is not refused,
    since a refused one has not reached any place.
  - The number may not depend on outcomes. So in the rule for `>>=` what comes
    second draws equally many words whatever has come first, and the numbers are
    added up.
-/

namespace Ascon

variable {α β : Type} {k l : Nat}

/-! ### Draws -/

namespace Draw

/-- Whatever is on the tape, the draw reads `k` words of it. -/
def Spends (x : Draw α) (k : Nat) : Prop :=
  ∀ tape, (x.run tape).2 = tape.skip k

theorem spends_pure (a : α) : (pure a : Draw α).Spends 0 :=
  fun _ => rfl

theorem spends_bind {x : Draw α} {f : α → Draw β} (hx : x.Spends k)
    (hf : ∀ a, (f a).Spends l) : (x >>= f).Spends (k + l) := by
  intro tape
  rw [run_bind, hf, hx, tape.skip_skip]

theorem spends_map {x : Draw α} (hx : x.Spends k) (f : α → β) :
    (x >>= fun a => pure (f a)).Spends k :=
  spends_bind hx fun a => spends_pure (f a)

theorem spends_words (k : Nat) : (words k).Spends k :=
  fun _ => rfl

/-- What is left of the last word is spent all the same. -/
theorem spends_bytes (k : Nat) : (bytes k).Spends ((k + 7) / 8) :=
  fun _ => rfl

theorem spends_vector {x : Draw α} (hx : x.Spends k) (n : Nat) :
    (vector x n).Spends (n * k) := by
  induction n with
  | zero =>
    rw [Nat.zero_mul]
    exact spends_pure _
  | succ n ih =>
    rw [Nat.succ_mul]
    exact spends_bind ih fun front => spends_map hx front.push

end Draw

/-! ### Computations that may be refused -/

namespace CheckedDraw

/-- Whatever is on the tape, the computation succeeds and reads `k` words of it. -/
def Spends (x : CheckedDraw α) (k : Nat) : Prop :=
  ∀ tape, ∃ a, x.run tape = .ok (a, tape.skip k)

theorem spends_pure (a : α) : (pure a : CheckedDraw α).Spends 0 :=
  fun _ => ⟨a, rfl⟩

theorem spends_bind {x : CheckedDraw α} {f : α → CheckedDraw β} (hx : x.Spends k)
    (hf : ∀ a, (f a).Spends l) : (x >>= f).Spends (k + l) := by
  intro tape
  obtain ⟨a, ha⟩ := hx tape
  obtain ⟨b, hb⟩ := hf a (tape.skip k)
  rw [tape.skip_skip] at hb
  refine ⟨b, ?_⟩
  rw [StateT.run_bind, ha]
  exact hb

/-- What spends nothing may come behind. -/
theorem spends_bind_left {x : CheckedDraw α} {f : α → CheckedDraw β} (hx : x.Spends k)
    (hf : ∀ a, (f a).Spends 0) : (x >>= f).Spends k :=
  spends_bind hx hf

/-- What spends nothing may come first. -/
theorem spends_bind_right {x : CheckedDraw α} {f : α → CheckedDraw β} (hx : x.Spends 0)
    (hf : ∀ a, (f a).Spends k) : (x >>= f).Spends k := by
  rw [← Nat.zero_add k]
  exact spends_bind hx hf

theorem spends_map {x : CheckedDraw α} (hx : x.Spends k) (f : α → β) :
    (x >>= fun a => pure (f a)).Spends k :=
  spends_bind_left hx fun a => spends_pure (f a)

/-- A draw spends in a checked computation what it spends on its own. -/
theorem spends_draw {x : Draw α} (hx : x.Spends k) : (liftM x : CheckedDraw α).Spends k := by
  intro tape
  refine ⟨(x.run tape).1, ?_⟩
  rw [← hx tape]
  rfl

/-- A check that is passed spends nothing. -/
theorem spends_check {x : Except Fault α} {a : α} (hx : x = .ok a) :
    (liftM x : CheckedDraw α).Spends 0 := by
  rw [hx]
  exact fun _ => ⟨a, rfl⟩

/-- Behind a check that is passed, only what comes then spends. -/
theorem spends_check_bind {x : Except Fault α} {a : α} {f : α → CheckedDraw β} (hx : x = .ok a)
    (hf : (f a).Spends k) : (liftM x >>= f).Spends k := by
  rw [hx]
  exact hf

end CheckedDraw

end Ascon
