import Ascon.Masking.Command
import Ascon.Proofs.Masking.Spending

/-! # How far a masked write reaches

  Bytes that are written to a masked state change its shares inside their window
  and nowhere else. Two shares that are disturbed alike still recombine to the
  right state, so it is the shares that are looked at here, one by one.

  - `shareBytes` is the byte at a position with its shares kept apart. Erasing and
    adding act on the shares of every byte by themselves.
  - Fresh shares read the tape word after word: for every word of the state that
    the window touches, one word for each share behind the first. So for any byte
    of any share it is known where on the tape it comes from.
  - To replace bytes is to erase them first, in every share. So nothing of what was
    there goes into what is there then.
-/

namespace Ascon

open Masking Sharing

/-! ### Sharings -/

namespace Sharing

variable {α : Type} {n : Nat} [XorGroup α]

theorem get_ofRest_succ (value : α) (rest : Vector α (n - 1)) (j : Fin (n - 1))
    (hj : j.val + 1 < n) : (ofRest value rest).get ⟨j.val + 1, hj⟩ = rest.get j := by
  rw [get_eq_getElem, ofRest, Vector.getElem_ofFn, dif_neg (Nat.succ_ne_zero _)]
  rfl

end Sharing

/-! ### Words in use -/

/-- The next words of a tape, in `count` rows of `width` words each. -/
def Tape.rows (tape : Tape) (count width : Nat) : Fin count → Fin width → UInt64 :=
  fun i j => tape.word (tape.drawn + (width * i + j))

theorem State.usedBefore_succ (s : State) {w : Nat} (hw : w < 5) :
    s.usedBefore (w + 1) = s.usedBefore w + if s.word w = 0 then 0 else 1 := by
  have hnext : s.words[w]? = some (s.word w) := by
    match w, hw with
    | 0, _ | 1, _ | 2, _ | 3, _ | 4, _ => rfl
  rw [usedBefore, List.take_add_one, hnext, List.countP_append, ← usedBefore]
  by_cases hzero : s.word w = 0
  · simp [hzero]
  · simp [hzero]

namespace Masking

variable {n offset len : Nat}

/-! ### The words behind fresh shares -/

/-- Fresh shares of a word are the next words of the tape, on the given bits. -/
theorem freshWordShares_run (n : Nat) (lanes : UInt64) (tape : Tape) :
    (freshWordShares n lanes).run tape =
      (Vector.ofFn fun j => tape.word (tape.drawn + j) &&& lanes,
        tape.skip (if lanes = 0 then 0 else n - 1)) := by
  unfold freshWordShares
  split
  · next hzero =>
    subst hzero
    refine Prod.ext (Vector.ext fun j hj => ?_) rfl
    show (Vector.replicate (n - 1) 0)[j] = _
    simp
  · refine Prod.ext (Vector.ext fun j hj => ?_) rfl
    show ((Draw.words (n - 1) tape).1.map (· &&& lanes))[j] = _
    simp

/-- The fresh shares of word `w` begin behind those of the used words in front of it, and end where
    those of the next word begin. -/
theorem freshWordShares_place (lanes : State) (tape : Tape) {w : Nat} (hw : w < 5) :
    ((freshWordShares n (lanes.word w)).run (tape.skip ((n - 1) * lanes.usedBefore w))).2 =
      tape.skip ((n - 1) * lanes.usedBefore (w + 1)) := by
  rw [freshWordShares_run, lanes.usedBefore_succ hw, Tape.skip_skip, Nat.mul_add]
  split
  · rfl
  · rw [Nat.mul_one]

/-- Fresh shares of a state pass over the words that have no bit in use. -/
theorem word_freshShares (lanes : State) (tape : Tape) (j : Fin (n - 1)) {w : Nat} (hw : w < 5) :
    (((freshShares n lanes).run tape).1.get j).word w =
      tape.word (tape.drawn + ((n - 1) * lanes.usedBefore w + j)) &&& lanes.word w := by
  have hrun : ((freshShares n lanes).run tape).1 =
      let shares := fun w =>
        ((freshWordShares n (lanes.word w)).run (tape.skip ((n - 1) * lanes.usedBefore w))).1
      assemble (shares 0) (shares 1) (shares 2) (shares 3) (shares 4) := by
    have h0 := freshWordShares_place (n := n) lanes tape (w := 0) (by decide)
    have h1 := freshWordShares_place (n := n) lanes tape (w := 1) (by decide)
    have h2 := freshWordShares_place (n := n) lanes tape (w := 2) (by decide)
    have h3 := freshWordShares_place (n := n) lanes tape (w := 3) (by decide)
    simp only [freshShares, Draw.run_bind]
    rw [← h3, ← h2, ← h1, ← h0]
    rfl
  rw [hrun]
  match w, hw with
  | 0, _ | 1, _ | 2, _ | 3, _ | 4, _ =>
    simp [assemble, get_eq_getElem, State.word, freshWordShares_run, Tape.skip, Nat.add_assoc]

/-! ### The bytes of fresh shares -/

theorem touchedIndex_lt (offset : Nat) (k : Fin len) :
    (offset + k) / 8 - offset / 8 < touchedWords offset len := by
  have hk := k.isLt
  rw [touchedWords, if_neg (by omega)]
  omega

/-- The word that holds byte `k` of a window, counted from the first one that the window touches. -/
def touchedIndex (offset : Nat) (k : Fin len) : Fin (touchedWords offset len) :=
  ⟨(offset + k) / 8 - offset / 8, touchedIndex_lt offset k⟩

/-- The bytes at the place of byte `k` of a window, in words that are given for every word of the
    state that the window touches. -/
def bytesOfWords (offset : Nat) (k : Fin len)
    (words : Fin (touchedWords offset len) → Fin (n - 1) → UInt64) : Vector UInt8 (n - 1) :=
  Vector.ofFn fun j => Lane.get (words (touchedIndex offset k) j) ((offset + k) % 8)

theorem get_bytesOfWords (offset : Nat) (k : Fin len)
    (words : Fin (touchedWords offset len) → Fin (n - 1) → UInt64) (j : Fin (n - 1)) :
    (bytesOfWords offset k words).get j =
      Lane.get (words (touchedIndex offset k) j) ((offset + k) % 8) :=
  Vector.getElem_ofFn j.isLt

theorem byte_freshShares (lanes : State) (tape : Tape) (j : Fin (n - 1)) {p : Nat} (hp : p < 40) :
    (((freshShares n lanes).run tape).1.get j).byte p =
      Lane.get (tape.word (tape.drawn + ((n - 1) * lanes.usedBefore (p / 8) + j))) (p % 8) &&&
        lanes.byte p := by
  rw [State.byte, word_freshShares _ _ _ (by omega), Lane.get_and _ _ (Nat.mod_lt _ (by decide))]
  rfl

section window

variable (h : offset + len ≤ 40) (tape : Tape)
include h

/-- Fresh shares for a window have nothing outside of it. -/
theorem byte_freshShares_outside {p : Nat} (hp : p < 40) (hout : p < offset ∨ offset + len ≤ p) :
    ((freshShares n (windowLanes offset len)).run tape).1.map (·.byte p) = XorGroup.zeros := by
  apply Vector.ext
  intro j hj
  have hbyte := byte_freshShares (windowLanes offset len) tape ⟨j, hj⟩ hp
  rw [byte_windowLanes h, if_neg (by omega), UInt8.and_zero] at hbyte
  rw [Vector.getElem_map, getElem_vector_zeros]
  exact hbyte

/-- Inside the window they are bytes of the words that are drawn. -/
theorem byte_freshShares_inside (k : Fin len) :
    ((freshShares n (windowLanes offset len)).run tape).1.map (·.byte (offset + k)) =
      bytesOfWords offset k (tape.rows _ (n - 1)) := by
  have hk := k.isLt
  have hused : (windowLanes offset len).usedBefore ((offset + k) / 8) =
      touchedIndex offset k := by
    rw [usedBefore_windowLanes h (by omega), touchedIndex]
    show _ = (offset + k) / 8 - offset / 8
    omega
  apply Vector.ext
  intro j hj
  have hbyte := byte_freshShares (windowLanes offset len) tape ⟨j, hj⟩
    (show offset + k < 40 by omega)
  rw [byte_windowLanes h, if_pos (by omega), show (0xff : UInt8) = -1 from rfl, UInt8.and_neg_one,
    hused] at hbyte
  rw [Vector.getElem_map]
  exact hbyte.trans (get_bytesOfWords offset k (tape.rows _ (n - 1)) ⟨j, hj⟩).symm

end window

end Masking

/-! ### Bytes of a window -/

namespace State

variable {offset len p : Nat}

theorem byte_zero_addFrom_outside {data : Bytes} (h : offset + data.length ≤ 40)
    (hout : p < offset ∨ offset + data.length ≤ p) : (zero.addFrom offset data).byte p = 0 := by
  rw [byte_addFrom zero data h, byte_zero, UInt8.zero_xor]
  split
  · next hle =>
    rw [List.getD_eq_getElem?_getD, List.getElem?_eq_none (by omega)]
    rfl
  · rfl

theorem byte_zero_addFrom_inside (h : offset + len ≤ 40) (data : Vector UInt8 len) (k : Fin len) :
    (zero.addFrom offset data.toList).byte (offset + k) = data.get k := by
  have hfits : offset + data.toList.length ≤ 40 := by rwa [Vector.length_toList]
  rw [byte_addFrom zero _ hfits, byte_zero, UInt8.zero_xor, if_pos (Nat.le_add_right _ _),
    Nat.add_sub_cancel_left]
  simp [Vector.get]

end State

namespace MaskedState

variable {n offset len : Nat}

/-- The byte at position `p`, with its shares kept apart. -/
def shareBytes (x : MaskedState n) (p : Nat) : Sharing UInt8 n := x.map (·.byte p)

theorem shareBytes_xor (x y : MaskedState n) (p : Nat) :
    shareBytes (x ^^^ y) p = shareBytes x p ^^^ shareBytes y p :=
  map_xor (fun s t => State.byte_xor s t p) x y

section map

variable {α : Type} {f : α → State} {g : α → UInt8} {p : Nat}

/-- A byte of shares that are made one by one is made one by one. -/
theorem shareBytes_map (h : ∀ a, (f a).byte p = g a) (shares : Sharing α n) :
    shareBytes (shares.map f) p = shares.map g := by
  unfold shareBytes
  rw [Vector.map_map]
  exact Vector.map_congr_left fun a _ => h a

theorem shareBytes_map_zero (h : ∀ a, (f a).byte p = 0) (shares : Sharing α n) :
    shareBytes (shares.map f) p = XorGroup.zeros := by
  rw [shareBytes_map h shares]
  exact Vector.map_const'

end map

/-- The second state is the first one with a window rewritten: byte `k` of the window, in all of its
    shares, has become what `f k` makes of it. Every other byte of every share is kept. -/
structure Rewritten (offset len : Nat) (f : Fin len → Sharing UInt8 n → Sharing UInt8 n)
    (x y : MaskedState n) : Prop where
  outside : ∀ p < stateBytes, p < offset ∨ offset + len ≤ p → shareBytes y p = shareBytes x p
  inside : ∀ k : Fin len, shareBytes y (offset + k) = f k (shareBytes x (offset + k))

namespace Rewritten

variable {f g : Fin len → Sharing UInt8 n → Sharing UInt8 n} {x y z : MaskedState n}

theorem trans (hxy : Rewritten offset len f x y) (hyz : Rewritten offset len g y z) :
    Rewritten offset len (fun k b => g k (f k b)) x z where
  outside p hp hout := (hyz.outside p hp hout).trans (hxy.outside p hp hout)
  inside k := by rw [hyz.inside, hxy.inside]

/-- What is added has to have no bit outside the window, in any share. -/
theorem of_xor {added : MaskedState n} {content : Fin len → Sharing UInt8 n}
    (hout : ∀ p < 40, p < offset ∨ offset + len ≤ p → shareBytes added p = XorGroup.zeros)
    (hin : ∀ k : Fin len, shareBytes added (offset + k) = content k) (x : MaskedState n) :
    Rewritten offset len (fun k b => b ^^^ content k) x (x ^^^ added) where
  outside p hp houtside := by rw [shareBytes_xor, hout p hp houtside, XorGroup.xor_zeros]
  inside k := by rw [shareBytes_xor, hin]

theorem of_erase (h : offset + len ≤ 40) (x : MaskedState n) :
    Rewritten offset len (fun _ _ => XorGroup.zeros) x
      (x.map (·.setFrom offset (List.replicate len 0))) := by
  have hfits : offset + (List.replicate len (0 : UInt8)).length ≤ 40 := by simpa using h
  constructor
  · intro p _ hout
    refine shareBytes_map (fun s => ?_) x
    rw [State.byte_setFrom _ _ hfits, List.length_replicate, if_neg (by omega)]
  · intro k
    refine shareBytes_map_zero (fun s => ?_) x
    rw [State.byte_setFrom _ _ hfits, List.length_replicate, if_pos (by omega)]
    simp

/-- To add something behind erasing is to replace what was there, in every share. -/
theorem of_erased {content : Fin len → Sharing UInt8 n} (h : offset + len ≤ 40)
    (hadd : Rewritten offset len (fun k b => b ^^^ content k)
      (x.map (·.setFrom offset (List.replicate len 0))) y) :
    Rewritten offset len (fun k _ => content k) x y := by
  have hboth := (of_erase h x).trans hadd
  simpa only [XorGroup.zeros_left] using hboth

/-- Data are added in a fresh sharing, and the fresh shares keep to the window. -/
theorem of_fresh (h : offset + len ≤ 40) (x : MaskedState n) (data : Vector UInt8 len)
    (tape : Tape) :
    Rewritten offset len
      (fun k b => b ^^^ ofRest (data.get k) (bytesOfWords offset k (tape.rows _ (n - 1)))) x
      (x ^^^ ofRest (State.zero.addFrom offset data.toList)
        ((freshShares n (windowLanes offset len)).run tape).1) := by
  have hlen : data.toList.length = len := Vector.length_toList
  have hsplit : ∀ (p : Nat) (value : State) (rest : Vector State (n - 1)),
      shareBytes (ofRest value rest) p = ofRest (value.byte p) (rest.map (·.byte p)) :=
    fun p => map_ofRest fun s t => State.byte_xor s t p
  refine of_xor (fun p hp hout => ?_) (fun k => ?_) x
  · rw [hsplit, byte_freshShares_outside h tape hp hout,
      State.byte_zero_addFrom_outside (by omega) (by omega)]
    exact ofRest_zeros
  · rw [hsplit, byte_freshShares_inside h, State.byte_zero_addFrom_inside h]

/-- Data in shares are added share by share. -/
theorem of_shares (h : offset + len ≤ 40) (x : MaskedState n)
    (shares : Vector (Vector UInt8 len) n) :
    Rewritten offset len (fun k b => b ^^^ shares.map (·.get k)) x
      (x ^^^ (shares.map Vector.toList).map (State.zero.addFrom offset)) := by
  rw [Vector.map_map]
  refine of_xor (fun p _ hout => ?_) (fun k => ?_) x
  · refine shareBytes_map_zero (fun share => ?_) shares
    have hlen : share.toList.length = len := Vector.length_toList
    exact State.byte_zero_addFrom_outside (by omega) (by omega)
  · exact shareBytes_map (fun share => State.byte_zero_addFrom_inside h share k) shares

end Rewritten

/-! ### Writes -/

/-- What can be written to a window of `len` bytes. -/
inductive Write (n len : Nat) where
  | add (data : Vector UInt8 len)
  | overwrite (data : Vector UInt8 len)
  | zero
  | addShares (shares : Vector (Vector UInt8 len) n)
  | overwriteShares (shares : Vector (Vector UInt8 len) n)
deriving Repr

namespace Write

/-- The write as a command, for the window at `offset`. -/
def command (offset : Nat) : Write n len → Command n
  | .add data => .add data.toList offset
  | .overwrite data => .overwrite data.toList offset
  | .zero => .zero offset len
  | .addShares shares => .addShares (shares.map Vector.toList) offset
  | .overwriteShares shares => .overwriteShares (shares.map Vector.toList) offset

/-- Whether what was in the window is replaced. Otherwise it is added to. -/
def replaces : Write n len → Bool
  | .overwrite _ | .zero | .overwriteShares _ => true
  | .add _ | .addShares _ => false

/-- How many words are drawn: for data that are not shared yet, one for every word the window
    touches and every share behind the first. -/
def words (offset : Nat) : Write n len → Nat
  | .add _ | .overwrite _ => (n - 1) * touchedWords offset len
  | .zero | .addShares _ | .overwriteShares _ => 0

/-- Byte `k` of what is written, in shares. It is made of the write and the words that are drawn for
    it alone. -/
def content (offset : Nat) (drawn : Fin (touchedWords offset len) → Fin (n - 1) → UInt64)
    (k : Fin len) : Write n len → Sharing UInt8 n
  | .add data | .overwrite data => ofRest (data.get k) (bytesOfWords offset k drawn)
  | .zero => XorGroup.zeros
  | .addShares shares | .overwriteShares shares => shares.map (·.get k)

/-- What becomes of the shares of byte `k` of the window. -/
def effect (offset : Nat) (drawn : Fin (touchedWords offset len) → Fin (n - 1) → UInt64)
    (w : Write n len) (k : Fin len) (old : Sharing UInt8 n) : Sharing UInt8 n :=
  if w.replaces then w.content offset drawn k else old ^^^ w.content offset drawn k

end Write

section run

variable (h : offset + len ≤ 40) (x : MaskedState n)
include h

theorem addBytes_run (data : Vector UInt8 len) (tape : Tape) :
    (addBytes x data.toList offset).run tape =
      .ok (x ^^^ ofRest (State.zero.addFrom offset data.toList)
          ((freshShares n (windowLanes offset len)).run tape).1,
        tape.skip ((n - 1) * touchedWords offset len)) := by
  have hspent := spends_freshShares n (windowLanes offset len) tape
  unfold addBytes
  rw [Vector.length_toList, checkWindow_of_le h, ← usedWords_windowLanes h, ← hspent]
  rfl

theorem overwriteZeroes_of_le :
    overwriteZeroes x offset len = .ok (x.map (·.setFrom offset (List.replicate len 0))) := by
  unfold overwriteZeroes
  rw [checkWindow_of_le h]
  rfl

theorem addShares_of_le (hn : 0 < n) (shares : Vector (Vector UInt8 len) n) :
    addShares x (shares.map Vector.toList) offset =
      .ok (x ^^^ (shares.map Vector.toList).map (State.zero.addFrom offset)) := by
  have hlen : ∀ data : Vector UInt8 len, data.toList.length = len := fun _ => Vector.length_toList
  have heven := evenShares_map hn hlen shares
  have hwindow := leadLength_map hn hlen shares
  unfold addShares
  rw [checkShareLengths_of_even heven, hwindow, checkWindow_of_le h,
    zipWith_addFrom x (fun share hshare => (heven share hshare).trans hwindow) h]
  rfl

end run

/-- A write is not refused. It draws the words that it should, and rewrites its window. -/
theorem exists_write (hn : 0 < n) (h : offset + len ≤ 40) (x : MaskedState n) (tape : Tape)
    (w : Write n len) :
    ∃ y, (apply x (w.command offset)).run tape = .ok ((.done, y), tape.skip (w.words offset)) ∧
      Rewritten offset len (w.effect offset (tape.rows _ (n - 1))) x y := by
  have hdone : ∀ {write : CheckedDraw (MaskedState n)} {y : MaskedState n} {tape' : Tape},
      write.run tape = .ok (y, tape') →
      (do return (.done, ← write) : CheckedDraw (Reply × MaskedState n)).run tape =
        .ok ((.done, y), tape') := by
    intro write y tape' hrun
    rw [StateT.run_bind, hrun]
    rfl
  cases w with
  | add data => exact ⟨_, hdone (addBytes_run h x data tape), .of_fresh h x data tape⟩
  | overwrite data =>
    refine ⟨_, hdone ?_, .of_erased h (.of_fresh h _ data tape)⟩
    unfold overwriteBytes
    rw [Vector.length_toList, overwriteZeroes_of_le h]
    exact addBytes_run h _ data tape
  | zero =>
    refine ⟨_, hdone ?_, .of_erase h x⟩
    rw [overwriteZeroes_of_le h]
    rfl
  | addShares shares =>
    refine ⟨_, hdone ?_, .of_shares h x shares⟩
    rw [addShares_of_le h x hn]
    rfl
  | overwriteShares shares =>
    refine ⟨_, hdone ?_, .of_erased h (.of_shares h _ shares)⟩
    have hlen : ∀ data : Vector UInt8 len, data.toList.length = len := fun _ => Vector.length_toList
    rw [result_overwriteShares, leadLength_map hn hlen, overwriteZeroes_of_le h]
    show (liftM (addShares _ _ offset) : CheckedDraw (MaskedState n)).run tape = _
    rw [addShares_of_le h _ hn]
    rfl

/-- A masked write touches its window and nothing else, in every share by itself. It is not refused,
    and it draws at most one word for each share behind the first and each word of the state that
    the window touches.

    - Outside the window, every byte of every share is what it was.
    - Inside, what replaces something does so in every share, by bytes that are made of the write
      and the words that are drawn. All else is added to what was there, share by share.
    - Data that are added change the shares behind the first by exactly the bits of the words that
      are drawn for them. -/
theorem write_footprint (hn : 0 < n) (h : offset + len ≤ stateBytes) (x : MaskedState n)
    (tape : Tape) (w : Write n len) :
    let drawn := tape.rows (touchedWords offset len) (n - 1)
    ∃ y, (apply x (w.command offset)).run tape = .ok ((.done, y), tape.skip (w.words offset)) ∧
      (∀ (i : Fin n) (p : Nat), p < stateBytes → p < offset ∨ offset + len ≤ p →
        (y.get i).byte p = (x.get i).byte p) ∧
      (∀ (i : Fin n) (k : Fin len), (y.get i).byte (offset + k) =
        if w.replaces then (w.content offset drawn k).get i
        else (x.get i).byte (offset + k) ^^^ (w.content offset drawn k).get i) ∧
      ∀ data, w = .add data → ∀ (j : Fin (n - 1)) (k : Fin len),
        y[j.val + 1].byte (offset + k) = x[j.val + 1].byte (offset + k) ^^^
          Lane.get (drawn (touchedIndex offset k) j) ((offset + k) % 8) := by
  intro drawn
  obtain ⟨y, hrun, hwrite⟩ := exists_write hn h x tape w
  have hshare : ∀ (z : MaskedState n) (p : Nat) (i : Fin n),
      (shareBytes z p).get i = (z.get i).byte p := fun z p i => Vector.getElem_map _ i.isLt
  have hinside : ∀ (i : Fin n) (k : Fin len), (y.get i).byte (offset + k) =
      if w.replaces then (w.content offset drawn k).get i
      else (x.get i).byte (offset + k) ^^^ (w.content offset drawn k).get i := by
    intro i k
    rw [← hshare, ← hshare, hwrite.inside, Write.effect]
    split
    · rfl
    · exact get_xor _ _ i
  refine ⟨y, hrun, fun i p hp hout => ?_, hinside, fun data hw j k => ?_⟩
  · rw [← hshare, ← hshare, hwrite.outside p hp hout]
  · subst hw
    have hj : j.val + 1 < n := by omega
    refine (hinside ⟨j.val + 1, hj⟩ k).trans ?_
    rw [Write.content, get_ofRest_succ, get_bytesOfWords]
    rfl

/-- Three shares, and a window that begins in one word and ends in the next. Four words are drawn.
    The byte behind the window lies in the second word, and is kept. -/
theorem write_footprint_across_words :
    let x : MaskedState 3 := XorGroup.zeros
    let tape : Tape := ⟨fun i => 0x0101010101010101 * i.toUInt64, 0⟩
    0 < 3 ∧ 5 + 6 ≤ stateBytes ∧
      ∃ y, (apply x (.add (List.replicate 6 7) 5)).run tape = .ok ((.done, y), tape.skip 4) ∧
        (∀ i, (y.get i).byte 7 = #v[6, 0, 1].get i) ∧
        (y[1].byte 8 = 2 ∧ y[2].byte 8 = 3) ∧
        ∀ i, (y.get i).byte 11 = (x.get i).byte 11 := by
  intro x tape
  have h : 5 + 6 ≤ stateBytes := by decide
  obtain ⟨y, hrun, hout, hin, hadded⟩ :=
    write_footprint (by decide) h x tape (.add (Vector.replicate 6 7))
  refine ⟨by decide, h, y, hrun, fun i => ?_, ⟨?_, ?_⟩, fun i => ?_⟩
  · refine (hin i 2).trans ?_
    revert i
    decide
  · exact (hadded _ rfl 0 3).trans (by decide)
  · exact (hadded _ rfl 1 3).trans (by decide)
  · exact hout i 11 (by decide) (by decide)

end MaskedState

end Ascon
