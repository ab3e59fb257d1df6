import Ascon.Masking.Aead
import Ascon.Proofs.Masking.Footprint
import Mathlib.Tactic.FinCases

/-! # Fresh sharings hide what they share

  A fresh sharing is made from a secret and random material. With the secret held
  fixed, the materials correspond one to one to all sharings of it: no sharing is
  favoured, and none is left out.

  - `Material` is what is taken from a tape: words for the shares of a state, byte
    strings for those of a key. Every material is on some tape.
  - To make a sharing from its shares behind the first one, and to refresh one by
    them, are one-to-one maps for any kind of secret. What is left to say of states
    and keys is in which order their material is read.
  - To pass from one secret to another, one adds the difference of the secrets to a
    single share. All other shares stay what they are. Seen from the material, this
    is an exchange of one material for another, and whoever sees all shares but one
    cannot tell the two apart.
-/

namespace Ascon

open Masking

/-! ### Words and strings on a tape -/

/-- A word may have any eight bytes. -/
theorem Lane.exists_get_eq (b : Nat → UInt8) : ∃ w, ∀ k < 8, get w k = b k := by
  -- the lanes are filled one after the other
  have hfill : ∀ m ≤ 8, ∃ w, ∀ k < m, get w k = b k := by
    intro m
    induction m with
    | zero => exact fun _ => ⟨0, fun k hk => absurd hk (Nat.not_lt_zero k)⟩
    | succ m ih =>
      intro hm
      obtain ⟨w, hw⟩ := ih (by omega)
      refine ⟨put w m (b m), fun k hk => ?_⟩
      rw [get_put w (b m) (by omega) (by omega)]
      split
      · next hkm => rw [hkm]
      · exact hw k (by omega)
  exact hfill 8 (Nat.le_refl 8)

namespace Tape

/-- A tape may have any words in rows of a given width. -/
theorem exists_word_eq (width : Nat) (words : Nat → Nat → UInt64) :
    ∃ tape : Tape, ∀ i, ∀ j < width, tape.word (tape.drawn + (width * i + j)) = words i j := by
  refine ⟨⟨fun p => words (p / width) (p % width), 0⟩, fun i j hj => ?_⟩
  have hdiv : (width * i + j) / width = i := by
    rw [Nat.mul_add_div (by omega), Nat.div_eq_of_lt hj, Nat.add_zero]
  have hmod : (width * i + j) % width = j := by
    rw [Nat.mul_add_mod, Nat.mod_eq_of_lt hj]
  show words ((0 + (width * i + j)) / width) ((0 + (width * i + j)) % width) = words i j
  rw [Nat.zero_add, hdiv, hmod]

theorem rows_surjective (count width : Nat) :
    Function.Surjective fun tape : Tape => tape.rows count width := by
  intro rows
  obtain ⟨tape, htape⟩ := exists_word_eq width fun i j =>
    if h : i < count ∧ j < width then rows ⟨i, h.1⟩ ⟨j, h.2⟩ else 0
  refine ⟨tape, funext fun i => funext fun j => ?_⟩
  exact (htape i j j.isLt).trans (dif_pos ⟨i.isLt, j.isLt⟩)

/-- The next `count` strings of `len` bytes. Every string begins with a word of its own, and takes
    the bytes of a word from the least significant one on. -/
def strings (tape : Tape) (count len : Nat) : Vector (Vector UInt8 len) count :=
  Vector.ofFn fun i => Vector.ofFn fun j =>
    Lane.get (tape.word (tape.drawn + ((len + 7) / 8 * i + j / 8))) (7 - j % 8)

theorem getElem_strings (tape : Tape) {count len i j : Nat} (hi : i < count) (hj : j < len) :
    (tape.strings count len)[i][j] =
      Lane.get (tape.word (tape.drawn + ((len + 7) / 8 * i + j / 8))) (7 - j % 8) := by
  simp only [strings, Vector.getElem_ofFn]

theorem strings_surjective (count len : Nat) :
    Function.Surjective fun tape : Tape => tape.strings count len := by
  intro strings
  let byteAt (i j : Nat) : UInt8 := if h : i < count ∧ j < len then (strings[i])[j] else 0
  choose word hword using fun i m => Lane.exists_get_eq fun l => byteAt i (8 * m + (7 - l))
  obtain ⟨tape, htape⟩ := exists_word_eq ((len + 7) / 8) word
  refine ⟨tape, Vector.ext fun i hi => Vector.ext fun j hj => ?_⟩
  have hplace : 8 * (j / 8) + (7 - (7 - j % 8)) = j := by omega
  rw [getElem_strings tape hi hj, htape i (j / 8) (by omega), hword i _ _ (by omega), hplace]
  exact dif_pos ⟨hi, hj⟩

end Tape

/-- Random material of some kind, as it is taken from a tape. -/
structure Material (μ : Type) where
  /-- The material that comes next on a tape. -/
  next : Tape → μ
  /-- The number of words that it takes up there. -/
  size : Nat
  /-- Every material comes next on some tape. -/
  next_surjective : Function.Surjective next

namespace Material

/-- One word for every word of a state and every share behind the first. -/
def forState (n : Nat) : Material (Fin 5 → Fin (n - 1) → UInt64) where
  next tape := tape.rows 5 (n - 1)
  size := 5 * (n - 1)
  next_surjective := Tape.rows_surjective 5 (n - 1)

/-- One string of `k` bytes for every share behind the first. -/
def forKey (k n : Nat) : Material (Vector (Vector UInt8 k) (n - 1)) where
  next tape := tape.strings (n - 1) k
  size := (n - 1) * ((k + 7) / 8)
  next_surjective := Tape.strings_surjective (n - 1) k

end Material

/-! ### All sharings of a value -/

namespace Sharing

variable {α : Type} {n : Nat} [XorGroup α]

theorem tail_ofRest (value : α) (rest : Vector α (n - 1)) : (ofRest value rest).tail = rest := by
  apply Vector.ext
  intro i hi
  simp [ofRest]

theorem ofRest_tail (hn : 0 < n) {s : Sharing α n} {value : α} (hs : combine s = value) :
    ofRest value s.tail = s := by
  obtain ⟨rest, hrest⟩ := exists_ofRest_eq hn hs
  rw [← hrest, tail_ofRest]

/-- The shares behind the first one may be anything, and with the value they make up the sharing. -/
def freshEquiv (hn : 0 < n) (value : α) :
    Vector α (n - 1) ≃ {s : Sharing α n // combine s = value} where
  toFun rest := ⟨ofRest value rest, combine_ofRest hn value rest⟩
  invFun s := s.val.tail
  left_inv rest := tail_ofRest value rest
  right_inv s := Subtype.ext (ofRest_tail hn s.property)

theorem combine_shift {s d : Sharing α n} {value value' : α} (hs : combine s = value)
    (hd : combine d = value ^^^ value') : combine (s ^^^ d) = value' := by
  rw [combine_xor, hs, hd, XorGroup.cancel_left]

/-- To add a sharing is to pass from the sharings of one value to those of another, and back. -/
def shiftEquiv {value value' : α} (d : Sharing α n) (hd : combine d = value ^^^ value') :
    {s : Sharing α n // combine s = value} ≃ {s : Sharing α n // combine s = value'} where
  toFun s := ⟨s.val ^^^ d, combine_shift s.property hd⟩
  invFun s := ⟨s.val ^^^ d, combine_shift s.property (hd.trans (XorGroup.xor_comm _ _))⟩
  left_inv s := Subtype.ext (XorGroup.cancel_right s.val d)
  right_inv s := Subtype.ext (XorGroup.cancel_right s.val d)

/-- A sharing is refreshed by adding it to a fresh sharing of nothing. -/
def refreshEquiv (hn : 0 < n) (s : Sharing α n) :
    Vector α (n - 1) ≃ {t : Sharing α n // combine t = combine s} :=
  (freshEquiv hn XorGroup.zeros).trans (shiftEquiv s (XorGroup.zeros_left _).symm)

theorem refreshEquiv_val (hn : 0 < n) (s : Sharing α n) (rest : Vector α (n - 1)) :
    (refreshEquiv hn s rest).val = s.refreshWith rest :=
  XorGroup.xor_comm _ _

end Sharing

/-! ### Uniform sharings -/

section uniform

open Sharing

variable {α μ : Type} {n : Nat} [XorGroup α]

/-- The computation is not refused. It takes its material from the tape and ends in a sharing of
    `value`, and the materials correspond one to one to these sharings. -/
def CheckedDraw.SharesUniformly (x : CheckedDraw (Sharing α n)) (m : Material μ) (value : α) :
    Prop :=
  ∃ shares : μ ≃ {s : Sharing α n // combine s = value},
    ∀ tape, x.run tape = .ok ((shares (m.next tape)).val, tape.skip m.size)

/-- Under an exchange of materials, the outcomes of two computations coincide in all shares but
    share `i`. -/
def CheckedDraw.AlikeBut (x : CheckedDraw (Sharing α n)) (i : Fin n) (m : Material μ)
    (y : CheckedDraw (Sharing α n)) : Prop :=
  ∃ exchange : μ ≃ μ, ∀ tape tape', m.next tape' = exchange (m.next tape) →
    ∃ s t, x.run tape = .ok (s, tape.skip m.size) ∧ y.run tape' = .ok (t, tape'.skip m.size) ∧
      ∀ j, j ≠ i → s.get j = t.get j

namespace CheckedDraw

section draw

variable {m : Material μ}

/-- A one-to-one map of drawn material onto the sharings of a value shares it uniformly. -/
theorem sharesUniformly_of_draw {β : Type} {draw : Draw β} {value : α} {e : μ ≃ β}
    (hdraw : ∀ tape, draw.run tape = (e (m.next tape), tape.skip m.size))
    (shares : β ≃ {s : Sharing α n // combine s = value}) :
    SharesUniformly (liftM (do return (shares (← draw)).val : Draw (Sharing α n))) m value := by
  refine ⟨e.trans shares, fun tape => congrArg Except.ok ?_⟩
  show (do return (shares (← draw)).val : Draw (Sharing α n)).run tape = _
  rw [Draw.run_bind, hdraw]
  rfl

variable {draw : Draw (Vector α (n - 1))} {e : μ ≃ Vector α (n - 1)}

theorem sharesUniformly_ofRest (hn : 0 < n)
    (hdraw : ∀ tape, draw.run tape = (e (m.next tape), tape.skip m.size)) (value : α) :
    SharesUniformly (liftM (do return ofRest value (← draw) : Draw (Sharing α n))) m value :=
  sharesUniformly_of_draw hdraw (freshEquiv hn value)

theorem sharesUniformly_refreshWith (hn : 0 < n)
    (hdraw : ∀ tape, draw.run tape = (e (m.next tape), tape.skip m.size)) (s : Sharing α n) :
    SharesUniformly (liftM (do return s.refreshWith (← draw) : Draw (Sharing α n))) m
      (combine s) := by
  have h := sharesUniformly_of_draw hdraw (refreshEquiv hn s)
  simpa only [refreshEquiv_val] using h

end draw

/-- All shares of a uniform sharing but one say nothing about what is shared. -/
theorem SharesUniformly.alikeBut {x y : CheckedDraw (Sharing α n)} {m : Material μ}
    {value value' : α} (hx : x.SharesUniformly m value) (hy : y.SharesUniformly m value')
    (i : Fin n) : x.AlikeBut i m y := by
  obtain ⟨shares, hx⟩ := hx
  obtain ⟨shares', hy⟩ := hy
  -- the difference of the values goes into the share that is left out
  let shift := shiftEquiv _ (combine_single i (value ^^^ value'))
  refine ⟨(shares.trans shift).trans shares'.symm, fun tape tape' hnext => ?_⟩
  have hshift : shares' (m.next tape') = shift (shares (m.next tape)) := by
    rw [hnext]
    exact shares'.apply_symm_apply _
  refine ⟨_, _, hx tape, hy tape', fun j hj => ?_⟩
  rw [hshift]
  exact (get_xor_single _ hj _).symm

end CheckedDraw

end uniform

/-! ### States -/

/-- The state with the given words. -/
def State.ofWords (words : Fin 5 → UInt64) : State where
  x0 := words ⟨0, by decide⟩
  x1 := words ⟨1, by decide⟩
  x2 := words ⟨2, by decide⟩
  x3 := words ⟨3, by decide⟩
  x4 := words ⟨4, by decide⟩

theorem State.word_ofWords (words : Fin 5 → UInt64) (w : Fin 5) :
    (ofWords words).word w = words w := by
  fin_cases w <;> rfl

namespace Masking

variable {n : Nat}

/-- The shares of a state behind the first one, word by word. -/
def rowsEquiv (n : Nat) : (Fin 5 → Fin (n - 1) → UInt64) ≃ Vector State (n - 1) where
  toFun rows := Vector.ofFn fun j => State.ofWords (rows · j)
  invFun rest w j := (rest.get j).word w
  left_inv rows := by
    funext w j
    have hshare : (Vector.ofFn fun j => State.ofWords (rows · j)).get j =
        State.ofWords (rows · j) := Vector.getElem_ofFn j.isLt
    show State.word (Vector.get _ j) w = rows w j
    rw [hshare, State.word_ofWords]
  right_inv rest := by
    apply Vector.ext
    intro j hj
    rw [Vector.getElem_ofFn]
    rfl

/-- Fresh shares of a whole state are the words of the tape, row by row. -/
theorem freshShares_run (tape : Tape) :
    (freshShares n allLanes).run tape =
      (rowsEquiv n (tape.rows 5 (n - 1)), tape.skip (5 * (n - 1))) := by
  have hlanes : ∀ w < 5, allLanes.word w = ~~~0 := by decide
  have hused : ∀ w < 5, allLanes.usedBefore w = w := by decide
  refine Prod.ext (Vector.ext fun j hj => State.ext_word fun w hw => ?_) ?_
  · have hword := word_freshShares allLanes tape ⟨j, hj⟩ hw
    rw [hlanes w hw, hused w hw, UInt64.not_zero, UInt64.and_neg_one] at hword
    rw [rowsEquiv, Equiv.coe_fn_mk, Vector.getElem_ofFn]
    exact hword.trans (State.word_ofWords (fun w => tape.rows 5 (n - 1) w ⟨j, hj⟩) ⟨w, hw⟩).symm
  · rw [spends_freshShares, Nat.mul_comm]
    rfl

end Masking

namespace MaskedState

open Sharing

variable {n : Nat}

theorem sharesUniformly_randomize (hn : 0 < n) (x : MaskedState n) :
    (liftM (randomize x) : CheckedDraw (MaskedState n)).SharesUniformly (.forState n)
      (unmask x) :=
  CheckedDraw.sharesUniformly_refreshWith hn freshShares_run x

theorem sharesUniformly_mask (hn : 2 ≤ n ∧ n ≤ 4) (s : State) :
    (mask n s).SharesUniformly (.forState n) s := by
  have hmask : mask n s = liftM (do
      return ofRest s (← freshShares n allLanes) : Draw (MaskedState n)) := by
    unfold mask
    rw [checkShares_of_le hn]
    rfl
  rw [hmask]
  exact CheckedDraw.sharesUniformly_ofRest (by omega) freshShares_run s

/-- A new masked state is a sharing of nothing, refreshed. -/
theorem sharesUniformly_new (hn : 2 ≤ n ∧ n ≤ 4) :
    (new n).SharesUniformly (.forState n) State.zero := by
  have hnew : new n = liftM (randomize (XorGroup.zeros : MaskedState n)) := by
    unfold new
    rw [checkShares_of_le hn]
    rfl
  rw [hnew, ← unmask_zeros (n := n)]
  exact sharesUniformly_randomize (by omega) _

/-- The ways to a masked state in fresh shares. -/
inductive Origin (n : Nat) where
  | new
  | mask (s : State)
  | randomize (x : MaskedState n)

namespace Origin

/-- The computation that makes the sharing. -/
def draw : Origin n → CheckedDraw (MaskedState n)
  | new => MaskedState.new n
  | mask s => MaskedState.mask n s
  | randomize x => liftM (MaskedState.randomize x)

/-- The state that is to be shared. -/
def secret : Origin n → State
  | new => State.zero
  | mask s => s
  | randomize x => unmask x

theorem sharesUniformly (hn : 2 ≤ n ∧ n ≤ 4) (o : Origin n) :
    o.draw.SharesUniformly (.forState n) o.secret := by
  cases o with
  | new => exact sharesUniformly_new hn
  | mask s => exact sharesUniformly_mask hn s
  | randomize x => exact sharesUniformly_randomize (by omega) x

end Origin

end MaskedState

/-! ### Keys -/

namespace MaskedKey

open Sharing

variable {k n : Nat}

/-- Byte strings are read one behind the other. -/
theorem vector_bytes_run (count : Nat) (tape : Tape) :
    (Draw.vector (Draw.bytes k) count).run tape =
      (tape.strings count k, tape.skip (count * ((k + 7) / 8))) := by
  induction count with
  | zero =>
    refine Prod.ext (Vector.ext fun i hi => absurd hi (Nat.not_lt_zero i)) ?_
    rw [Nat.zero_mul]
    rfl
  | succ count ih =>
    have hstep : (Draw.vector (Draw.bytes k) (count + 1)).run tape =
        let front := (Draw.vector (Draw.bytes k) count).run tape
        let last := (Draw.bytes k).run front.2
        (front.1.push last.1, last.2) := rfl
    rw [hstep, ih]
    refine Prod.ext (Vector.ext fun i hi => Vector.ext fun j hj => ?_) ?_
    · rw [Tape.getElem_strings tape hi hj]
      show ((tape.strings count k).push _)[i][j] = _
      rw [Vector.getElem_push]
      split
      · next hfront => exact Tape.getElem_strings tape hfront hj
      · next hlast =>
        -- the last string begins behind all words of the strings in front of it
        obtain rfl : i = count := by omega
        have hbyte : ((Draw.bytes k).run (tape.skip (i * ((k + 7) / 8)))).1[j] =
            Lane.get (tape.word (tape.drawn + i * ((k + 7) / 8) + j / 8)) (7 - j % 8) :=
          Vector.getElem_ofFn hj
        rw [hbyte, Nat.add_assoc, Nat.mul_comm i]
    · rw [Nat.succ_mul]
      exact tape.skip_skip _ _

theorem sharesUniformly_ofKey (hn : 2 ≤ n ∧ n ≤ 4) (key : Vector UInt8 k) :
    (ofKey n key).SharesUniformly (.forKey k n) key := by
  have hkey : ofKey n key = liftM (do
      return ofRest key (← Draw.vector (Draw.bytes k) (n - 1)) : Draw (MaskedKey k n)) := by
    unfold ofKey
    rw [MaskedState.checkShares_of_le hn]
    rfl
  rw [hkey]
  exact CheckedDraw.sharesUniformly_ofRest (e := .refl _) (by omega) (vector_bytes_run _) key

theorem sharesUniformly_randomize (hn : 0 < n) (key : MaskedKey k n) :
    (liftM key.randomize : CheckedDraw (MaskedKey k n)).SharesUniformly (.forKey k n)
      (combine key) :=
  CheckedDraw.sharesUniformly_refreshWith (e := .refl _) hn (vector_bytes_run _) key

/-- The ways to a masked key in fresh shares. -/
inductive Origin (k n : Nat) where
  | ofKey (key : Vector UInt8 k)
  | randomize (key : MaskedKey k n)

namespace Origin

/-- The computation that makes the sharing. -/
def draw : Origin k n → CheckedDraw (MaskedKey k n)
  | ofKey key => MaskedKey.ofKey n key
  | randomize key => liftM key.randomize

/-- The key that is to be shared. -/
def secret : Origin k n → Vector UInt8 k
  | ofKey key => key
  | randomize key => Sharing.combine key

theorem sharesUniformly (hn : 2 ≤ n ∧ n ≤ 4) (o : Origin k n) :
    o.draw.SharesUniformly (.forKey k n) o.secret := by
  cases o with
  | ofKey key => exact sharesUniformly_ofKey hn key
  | randomize key => exact sharesUniformly_randomize (by omega) key

end Origin

end MaskedKey

/-! ### All of them -/

section secrecy

variable {n : Nat}

/-- Every way to a fresh sharing of a state or a key makes of its random material a sharing of the
    intended value, and of each material another one, until all sharings of the value have been
    made. Therefore any two of these ways, whatever their secrets are, lead to the same shares but
    one, whichever this may be, under an exchange of one's material for the other's. -/
theorem fresh_sharings_uniform (hn : 2 ≤ n ∧ n ≤ 4) :
    (∀ o : MaskedState.Origin n, o.draw.SharesUniformly (.forState n) o.secret) ∧
    (∀ (o o' : MaskedState.Origin n) (i : Fin n), o.draw.AlikeBut i (.forState n) o'.draw) ∧
    ∀ k, (∀ o : MaskedKey.Origin k n, o.draw.SharesUniformly (.forKey k n) o.secret) ∧
      ∀ (o o' : MaskedKey.Origin k n) (i : Fin n), o.draw.AlikeBut i (.forKey k n) o'.draw := by
  refine ⟨fun o => o.sharesUniformly hn, fun o o' i => ?_, fun k =>
    ⟨fun o => o.sharesUniformly hn, fun o o' i => ?_⟩⟩
  · exact (o.sharesUniformly hn).alikeBut (o'.sharesUniformly hn) i
  · exact (o.sharesUniformly hn).alikeBut (o'.sharesUniformly hn) i

/-- Three shares of which the first is left out: the others do not tell a state from the zero state,
    nor a key of twenty bytes that is split from another one that is refreshed. -/
theorem fresh_sharings_uniform_three :
    let s : State := ⟨1, 2, 3, 4, 5⟩
    let key : Vector UInt8 20 := Vector.replicate 20 7
    let shared : MaskedKey 20 3 := #v[Vector.replicate 20 1, Vector.replicate 20 2, XorGroup.zeros]
    (2 ≤ 3 ∧ 3 ≤ 4) ∧
      (MaskedState.mask 3 s).SharesUniformly (.forState 3) s ∧
      (MaskedState.mask 3 s).AlikeBut 0 (.forState 3) (MaskedState.new 3) ∧
      (liftM shared.randomize : CheckedDraw _).SharesUniformly (.forKey 20 3)
        (Vector.replicate 20 3) ∧
      (MaskedKey.ofKey 3 key).AlikeBut 0 (.forKey 20 3) (liftM shared.randomize) := by
  intro s key shared
  have hn : 2 ≤ 3 ∧ 3 ≤ 4 := by decide
  have hvalue : Sharing.combine shared = Vector.replicate 20 3 := by decide +kernel
  obtain ⟨hstate, hstates, hkey⟩ := fresh_sharings_uniform hn
  refine ⟨hn, hstate (.mask s), hstates (.mask s) .new 0, ?_, ?_⟩
  · rw [← hvalue]
    exact (hkey 20).1 (.randomize shared)
  · exact (hkey 20).2 (.ofKey key) (.randomize shared) 0

end secrecy

end Ascon
