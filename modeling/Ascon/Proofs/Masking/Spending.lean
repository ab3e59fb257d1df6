import Ascon.Proofs.Masking.Duplex
import Ascon.Proofs.Masking.Rerandomization
import Ascon.Proofs.Masking.Words
import Ascon.Proofs.Random.Spending
import Mathlib.Tactic.Ring

/-! # What a masked message spends

  A masked cipher draws as many words for a message as the lengths of the
  message and its associated data ask for. Key, nonce, bytes, tag and the words
  themselves have no say in it, and decrypting draws what encrypting draws.

  - Data that come in draw for the words of the state that they touch. How many
    these are is a matter of offset and length.
  - The permutation draws a fixed number of words. Keys go in share by share and
    draw nothing, and so does everything that is read.
  - The duplex adds data when it encrypts and replaces bytes when it decrypts. It
    draws equally much in both cases, and so do the passes over a message, by
    induction on its blocks.
-/

namespace Ascon

open Masking MaskedState

/-! ### Words that a window touches -/

namespace State

/-- The number of words of a state in which a bit is set. -/
def usedWords (s : State) : Nat := s.words.countP (· != 0)

/-- The number of words in front of word `w` in which a bit is set. -/
def usedBefore (s : State) (w : Nat) : Nat := (s.words.take w).countP (· != 0)

end State

namespace Masking

/-- From the start on, the bytes fill word after word. -/
theorem touchedWords_zero (len : Nat) : touchedWords 0 len = (len + 7) / 8 := by
  unfold touchedWords
  split <;> omega

/-- A single byte touches one word, wherever it is. -/
theorem touchedWords_singleton (offset : Nat) (b : UInt8) :
    touchedWords offset [b].length = 1 := by
  rw [List.length_singleton, touchedWords, if_neg Nat.one_ne_zero]
  omega

theorem countP_range_between (a b m : Nat) :
    (List.range m).countP (fun w => decide (a ≤ w ∧ w < b)) = min m b - a := by
  induction m with
  | zero => simp
  | succ m ih =>
    rw [List.range_succ, List.countP_append, ih, List.countP_singleton]
    split
    · next hm =>
      have hm := of_decide_eq_true hm
      omega
    · next hm =>
      have hm : ¬(a ≤ m ∧ m < b) := fun h => hm (decide_eq_true h)
      omega

/-- In front of a word, the used words of a window are those from its first one on. -/
theorem usedBefore_windowLanes {offset len : Nat} (h : offset + len ≤ 40) (hlen : 0 < len)
    (w : Nat) : (windowLanes offset len).usedBefore w =
      min w ((offset + len - 1) / 8 + 1) - offset / 8 := by
  have hwords : (windowLanes offset len).words =
      (List.range 5).map (windowLanes offset len).word := rfl
  have hused : ∀ v ∈ List.range (min w 5), ((windowLanes offset len).word v != 0) = true ↔
      decide (offset / 8 ≤ v ∧ v < (offset + len - 1) / 8 + 1) = true := by
    intro v _
    rw [bne_iff_ne, ne_eq, word_windowLanes_eq_zero_iff h hlen, not_not, decide_eq_true_eq]
  rw [State.usedBefore, hwords, ← List.map_take, List.take_range, List.countP_map]
  have hcount := List.countP_congr hused
  rw [countP_range_between] at hcount
  refine hcount.trans ?_
  omega

theorem usedWords_windowLanes {offset len : Nat} (h : offset + len ≤ 40) :
    (windowLanes offset len).usedWords = touchedWords offset len := by
  unfold touchedWords
  split
  · next hlen =>
    subst hlen
    rfl
  · next hlen =>
    refine (usedBefore_windowLanes h (by omega) 5).trans ?_
    omega

/-! ### Fresh shares -/

variable {n : Nat}

theorem spends_freshWordShares (n : Nat) (lanes : UInt64) :
    (freshWordShares n lanes).Spends (if lanes = 0 then 0 else n - 1) := by
  unfold freshWordShares
  split
  · exact Draw.spends_pure _
  · exact Draw.spends_map (Draw.spends_words (n - 1)) _

theorem mul_countP_ne_zero (k : Nat) (ws : List UInt64) :
    k * ws.countP (· != 0) = (ws.map fun w => if w = 0 then 0 else k).sum := by
  induction ws with
  | nil => rfl
  | cons w ws ih =>
    rw [List.countP_cons, Nat.mul_add, ih, List.map_cons, List.sum_cons, Nat.add_comm]
    by_cases hw : w = 0
    · simp [hw]
    · simp [hw]

/-- Fresh shares are drawn for the words that are used, one word for every share but the first. -/
theorem spends_freshShares (n : Nat) (lanes : State) :
    (freshShares n lanes).Spends ((n - 1) * lanes.usedWords) := by
  rw [State.usedWords, mul_countP_ne_zero]
  refine Draw.spends_bind (spends_freshWordShares n lanes.x0) fun _ => ?_
  refine Draw.spends_bind (spends_freshWordShares n lanes.x1) fun _ => ?_
  refine Draw.spends_bind (spends_freshWordShares n lanes.x2) fun _ => ?_
  refine Draw.spends_bind (spends_freshWordShares n lanes.x3) fun _ => ?_
  refine Draw.spends_bind (spends_freshWordShares n lanes.x4) fun _ => ?_
  exact Draw.spends_pure _

end Masking

/-! ### Masked states -/

namespace MaskedState

variable {n : Nat}

theorem spends_new (hn : 2 ≤ n ∧ n ≤ 4) : (new n).Spends ((n - 1) * 5) := by
  have hall : allLanes.usedWords = 5 := by decide
  rw [← hall]
  apply CheckedDraw.spends_check_bind (checkShares_of_le hn)
  exact CheckedDraw.spends_draw (Draw.spends_map (spends_freshShares n allLanes) _)

theorem spends_permute (hn : 0 < n) {rounds : Nat} (hr : 1 ≤ rounds ∧ rounds ≤ maxRounds)
    (x : MaskedState n) : (permute x rounds).Spends (permuteWords n rounds) := by
  intro tape
  obtain ⟨y, hy, _⟩ := exists_permuteWith_eq hn hr x (tape.upcoming _)
  rw [permute_reads hn hr, hy]
  exact ⟨y, rfl⟩

section inside

variable {data : Bytes} {offset : Nat}

theorem spends_addBytes (h : offset + data.length ≤ stateBytes) (x : MaskedState n) :
    (addBytes x data offset).Spends ((n - 1) * touchedWords offset data.length) := by
  rw [← usedWords_windowLanes h]
  apply CheckedDraw.spends_check_bind (checkWindow_of_le h)
  exact CheckedDraw.spends_map (CheckedDraw.spends_draw (spends_freshShares n _)) _

/-- To replace bytes draws what adding them draws. -/
theorem spends_overwriteBytes (h : offset + data.length ≤ stateBytes) (x : MaskedState n) :
    (overwriteBytes x data offset).Spends ((n - 1) * touchedWords offset data.length) := by
  obtain ⟨y, hy, _⟩ := exists_ok_of_agree (agree_overwriteZeroes x offset data.length)
    (State.overwriteZeroes_of_le _ h)
  exact CheckedDraw.spends_check_bind hy (spends_addBytes h y)

end inside

end MaskedState

/-! ### Masked keys and duplexes -/

theorem MaskedKey.spends_randomize {k n : Nat} (key : MaskedKey k n) :
    key.randomize.Spends ((n - 1) * ((k + 7) / 8)) :=
  Draw.spends_map (Draw.spends_vector (Draw.spends_bytes k) (n - 1)) _

namespace MaskedDuplex

open KeyedDuplex

variable {k n words : Nat} {data : Bytes} {offset len rounds : Nat}

theorem spends_onState {d : MaskedDuplex k n} {f : MaskedState n → CheckedDraw (MaskedState n)}
    (h : (f d.state).Spends words) : (d.onState f).Spends words :=
  CheckedDraw.spends_map h fun state => MaskedDuplex.mk state d.key

/-- The key goes between initial value and nonce, and draws nothing. -/
theorem spends_start (hn : 0 < n) {iv : Bytes} (hiv : iv.length + k = nonceOffset) (nonce : Nonce)
    (d : MaskedDuplex k n) : (start iv nonce d).Spends ((n - 1) * ((iv.length + 7) / 8 + 2)) := by
  rw [show nonceOffset = 24 from rfl] at hiv
  have hinside : 0 + iv.length ≤ 40 := by omega
  have hkey : iv.length + (Sharing.combine d.key).toList.length ≤ 40 := by
    rw [Vector.length_toList]
    omega
  have hnonce : nonceOffset + nonce.toList.length ≤ 40 := by
    rw [Vector.length_toList]
    decide
  have htouched : touchedWords nonceOffset nonce.toList.length = 2 := by
    rw [Vector.length_toList]
    decide
  rw [Nat.mul_add, ← touchedWords_zero, ← htouched]
  apply spends_onState
  apply CheckedDraw.spends_bind (spends_overwriteBytes hinside d.state)
  intro x
  obtain ⟨y, hy, _⟩ := exists_ok_of_agree (agree_overwriteKey hn x d.key iv.length)
    (State.overwriteBytes_of_le _ hkey)
  exact CheckedDraw.spends_check_bind hy (spends_overwriteBytes hnonce y)

theorem spends_permute (hn : 0 < n) (hr : 1 ≤ rounds ∧ rounds ≤ maxRounds)
    (d : MaskedDuplex k n) : (permute rounds d).Spends (permuteWords n rounds) :=
  spends_onState (MaskedState.spends_permute hn hr d.state)

/-- Bytes of the key go in as they are shared, and draw nothing. -/
theorem spends_addKeyBytes (hn : 0 < n) {f : Vector UInt8 k → Bytes}
    (hlen : ∀ a, (f a).length = len) (hf : ∀ a b, f (a ^^^ b) = xorBytes (f a) (f b))
    (h : offset + len ≤ stateBytes) (x : MaskedState n) (key : MaskedKey k n) :
    (liftM (addShares x (key.map f) offset) : CheckedDraw (MaskedState n)).Spends 0 := by
  have hfits : offset + (f (Sharing.combine key)).length ≤ 40 := by rwa [hlen]
  obtain ⟨y, hy, _⟩ := exists_ok_of_agree (agree_addKeyBytes hn hlen hf x key offset)
    (State.addBytes_of_le _ hfits)
  exact CheckedDraw.spends_check hy

theorem spends_addKey (hn : 0 < n) (h : offset + k ≤ stateBytes) (d : MaskedDuplex k n) :
    (addKey offset d).Spends 0 := by
  have hlen : ∀ key : Vector UInt8 k, key.toList.length = k := fun _ => Vector.length_toList
  exact spends_onState (spends_addKeyBytes hn hlen toList_xor h d.state d.key)

theorem spends_addKeyTail (hn : 0 < n) (h : offset + 16 ≤ stateBytes) (d : MaskedDuplex k n) :
    (addKeyTail offset d).Spends 0 := by
  have htail : offset + (k - (k - 16)) ≤ stateBytes := by omega
  exact spends_onState (spends_addKeyBytes hn length_keyTail keyTail_xor htail d.state d.key)

theorem spends_addBytes (h : offset + data.length ≤ stateBytes) (d : MaskedDuplex k n) :
    (addBytes data offset d).Spends ((n - 1) * touchedWords offset data.length) :=
  spends_onState (MaskedState.spends_addBytes h d.state)

theorem spends_extractBytes (h : offset + len ≤ stateBytes) (d : MaskedDuplex k n) :
    (extractBytes offset len d).Spends 0 := by
  obtain ⟨out, hout, _⟩ := exists_ok_of_agree (agree_extractBytes d.state offset len)
    (State.extractBytes_of_le _ h)
  exact CheckedDraw.spends_check hout

theorem spends_encryptBytes (h : offset + data.length ≤ stateBytes) (d : MaskedDuplex k n) :
    (encryptBytes data offset d).Spends ((n - 1) * touchedWords offset data.length) := by
  apply CheckedDraw.spends_bind_left (spends_addBytes h d)
  intro d
  exact CheckedDraw.spends_map (spends_extractBytes h d) _

/-- Decrypting replaces what encrypting adds to, and draws as much. -/
theorem spends_decryptBytes (h : offset + data.length ≤ stateBytes) (d : MaskedDuplex k n) :
    (decryptBytes data offset d).Spends ((n - 1) * touchedWords offset data.length) := by
  obtain ⟨out, hout, _⟩ := exists_ok_of_agree
    (agree_extractAdd d.state data data.length offset) (State.extractAdd_of_le _ h)
  apply CheckedDraw.spends_check_bind hout
  exact CheckedDraw.spends_map (spends_onState (spends_overwriteBytes h d.state)) _

end MaskedDuplex

/-! ### The mode -/

namespace Aead

variable {p : Parameters} {n : Nat}

/-- A treatment of a block that draws for the words of the block and for nothing else. -/
def SpendsOnBlocks (step : Bytes → MaskedDuplex p.keySize n →
    CheckedDraw (Bytes × MaskedDuplex p.keySize n)) : Prop :=
  ∀ {block : Bytes} (d : MaskedDuplex p.keySize n), 0 + block.length ≤ stateBytes →
    (step block d).Spends ((n - 1) * touchedWords 0 block.length)

/-- The number of words that go into taking in `a` bytes of associated data. -/
def associatedWords (p : Parameters) (n a : Nat) : Nat :=
  if a = 0 then 0 else (a / p.rate + 1) * permuteWords n p.rounds + (n - 1) * ((a + 7) / 8 + 1)

theorem spends_setUp (hn : 0 < n) (hp : p.WellFormed) (nonce : Nonce)
    (d : MaskedDuplex p.keySize n) :
    (setUp p nonce d).Spends
      ((n - 1) * ((p.iv.length + 7) / 8 + 2) + permuteWords n maxRounds) := by
  have hkey : stateBytes - p.keySize + p.keySize ≤ stateBytes := by
    have := hp.key_fits
    omega
  apply CheckedDraw.spends_bind (MaskedDuplex.spends_start hn hp.start_fits nonce d)
  intro d
  apply CheckedDraw.spends_bind_left (MaskedDuplex.spends_permute hn (by decide) d)
  intro d
  exact MaskedDuplex.spends_addKey hn hkey d

theorem spends_finalize (hn : 0 < n) (hp : p.WellFormed) (d : MaskedDuplex p.keySize n) :
    (finalize p d).Spends (permuteWords n maxRounds) := by
  apply CheckedDraw.spends_bind_right (MaskedDuplex.spends_addKey hn hp.key_fits d)
  intro d
  apply CheckedDraw.spends_bind_left (MaskedDuplex.spends_permute hn (by decide) d)
  intro d
  apply CheckedDraw.spends_bind_right (MaskedDuplex.spends_addKeyTail hn (by decide) d)
  intro d
  exact CheckedDraw.spends_map (MaskedDuplex.spends_extractBytes (by decide) d) _

/-! ### Passes over data -/

section passes

variable {step : Bytes → MaskedDuplex p.keySize n →
  CheckedDraw (Bytes × MaskedDuplex p.keySize n)}

theorem spends_feedFull (hn : 0 < n) (hp : p.WellFormed) (hstep : SpendsOnBlocks step)
    {blocks : List Bytes} (hlen : ∀ block ∈ blocks, block.length = p.rate)
    (d : MaskedDuplex p.keySize n) :
    (feedFull p step blocks d).Spends
      (blocks.length * ((n - 1) * ((p.rate + 7) / 8) + permuteWords n p.rounds)) := by
  induction blocks generalizing d with
  | nil =>
    rw [List.length_nil, Nat.zero_mul]
    exact CheckedDraw.spends_pure _
  | cons block blocks ih =>
    have hblock : block.length = p.rate := hlen block List.mem_cons_self
    have hfits : 0 + block.length ≤ stateBytes := by
      have := hp.rate_le
      omega
    have hblocks : ∀ block ∈ blocks, block.length = p.rate :=
      fun b hb => hlen b (List.mem_cons_of_mem _ hb)
    rw [List.length_cons, Nat.succ_mul, Nat.add_comm, Nat.add_assoc, ← hblock, ← touchedWords_zero]
    apply CheckedDraw.spends_bind (hstep d hfits)
    rintro ⟨out, d⟩
    apply CheckedDraw.spends_bind (MaskedDuplex.spends_permute hn hp.rounds_bounds d)
    intro d
    rw [touchedWords_zero, hblock]
    exact CheckedDraw.spends_map (ih hblocks d) _

/-- If blocks end where words end, then no word is touched by two blocks. -/
theorem words_of_blocks {rate : Nat} (h : 8 ∣ rate) (m : Nat) :
    m / rate * ((rate + 7) / 8) + (m % rate + 7) / 8 = (m + 7) / 8 := by
  obtain ⟨w, rfl⟩ := h
  have hm := Nat.div_add_mod m (8 * w)
  have hw : (8 * w + 7) / 8 = w := by omega
  rw [Nat.mul_assoc] at hm
  rw [hw, Nat.mul_comm _ w]
  omega

/-- A pass draws for every word of the data once, for the padding, and for one permutation behind
    every full block. -/
theorem spends_feed (hn : 0 < n) (hp : p.WellFormed) (hrate : 8 ∣ p.rate)
    (hstep : SpendsOnBlocks step) (data : Bytes) (d : MaskedDuplex p.keySize n) :
    (feed p step data d).Spends
      (data.length / p.rate * permuteWords n p.rounds + (n - 1) * ((data.length + 7) / 8 + 1)) := by
  have hlt := Blocks.length_rest_lt hp.rate_pos data
  have hle := hp.rate_le
  have hfull : (feedFull p step (Blocks.of p.rate data).full d).Spends
      (data.length / p.rate * ((n - 1) * ((p.rate + 7) / 8) + permuteWords n p.rounds)) := by
    rw [← Blocks.length_full]
    exact spends_feedFull hn hp hstep Blocks.length_of_mem d
  have hlast : ∀ d, (step (Blocks.of p.rate data).rest d).Spends
      ((n - 1) * ((data.length % p.rate + 7) / 8)) := by
    intro d
    rw [← Blocks.length_rest, ← touchedWords_zero]
    exact hstep d (by omega)
  have hpad : ∀ d : MaskedDuplex p.keySize n,
      (KeyedDuplex.addBytes [padByte] (Blocks.of p.rate data).rest.length d).Spends
        ((n - 1) * 1) := by
    intro d
    have hfits : (Blocks.of p.rate data).rest.length + [padByte].length ≤ stateBytes := by
      rw [List.length_singleton]
      omega
    have hspends := MaskedDuplex.spends_addBytes hfits d
    rwa [touchedWords_singleton] at hspends
  have hcount : data.length / p.rate * permuteWords n p.rounds +
      (n - 1) * ((data.length + 7) / 8 + 1) =
      data.length / p.rate * ((n - 1) * ((p.rate + 7) / 8) + permuteWords n p.rounds) +
        ((n - 1) * ((data.length % p.rate + 7) / 8) + (n - 1) * 1) := by
    rw [← words_of_blocks hrate]
    ring
  rw [hcount]
  apply CheckedDraw.spends_bind hfull
  rintro ⟨out, d⟩
  apply CheckedDraw.spends_bind (hlast d)
  rintro ⟨last, d⟩
  exact CheckedDraw.spends_map (hpad d) fun d => (out ++ last, d)

end passes

theorem spendsOnBlocks_absorb : SpendsOnBlocks (p := p) (n := n) absorbBlock :=
  fun d hfits => CheckedDraw.spends_map (MaskedDuplex.spends_addBytes hfits d) _

theorem spendsOnBlocks_encrypt :
    SpendsOnBlocks (p := p) (n := n) (KeyedDuplex.encryptBytes · 0) :=
  fun d hfits => MaskedDuplex.spends_encryptBytes hfits d

theorem spendsOnBlocks_decrypt :
    SpendsOnBlocks (p := p) (n := n) (KeyedDuplex.decryptBytes · 0) :=
  fun d hfits => MaskedDuplex.spends_decryptBytes hfits d

theorem spends_absorbAssociated (hn : 0 < n) (hp : p.WellFormed) (hrate : 8 ∣ p.rate) (ad : Bytes)
    (d : MaskedDuplex p.keySize n) :
    (absorbAssociated p ad d).Spends (associatedWords p n ad.length + (n - 1) * 1) := by
  have hsep : stateBytes - 1 + [separatorByte].length ≤ stateBytes := by decide
  cases ad with
  | nil =>
    exact CheckedDraw.spends_bind (CheckedDraw.spends_pure d) fun d =>
      MaskedDuplex.spends_addBytes hsep d
  | cons b ad =>
    have hcount : associatedWords p n (b :: ad).length =
        (b :: ad).length / p.rate * permuteWords n p.rounds +
          (n - 1) * (((b :: ad).length + 7) / 8 + 1) + permuteWords n p.rounds := by
      have hne : (b :: ad).length ≠ 0 := Nat.succ_ne_zero _
      rw [associatedWords, if_neg hne]
      ring
    rw [hcount, Nat.add_assoc]
    have hfeed := spends_feed hn hp hrate spendsOnBlocks_absorb (b :: ad) d
    apply CheckedDraw.spends_bind (CheckedDraw.spends_map hfeed Prod.snd)
    intro d
    apply CheckedDraw.spends_bind (MaskedDuplex.spends_permute hn hp.rounds_bounds d)
    intro d
    exact MaskedDuplex.spends_addBytes hsep d

/-- The number of words that go into the mode for a message of `m` bytes with `a` bytes of
    associated data. -/
def modeWords (p : Parameters) (n a m : Nat) : Nat :=
  (n - 1) * ((p.iv.length + 7) / 8 + 4) + 2 * permuteWords n maxRounds + associatedWords p n a +
    m / p.rate * permuteWords n p.rounds + (n - 1) * ((m + 7) / 8)

/-- The mode draws equally much for a message, whatever it does with the blocks and whatever is
    made of its outcome. -/
theorem spends_message {step : Bytes → MaskedDuplex p.keySize n →
      CheckedDraw (Bytes × MaskedDuplex p.keySize n)} (hn : 0 < n) (hp : p.WellFormed)
    (hrate : 8 ∣ p.rate) (hstep : SpendsOnBlocks step) (nonce : Nonce) (ad data : Bytes)
    (d : MaskedDuplex p.keySize n) {α : Type} (result : Bytes → Tag → α) :
    CheckedDraw.Spends (do
        let d ← setUp p nonce d
        let d ← absorbAssociated p ad d
        let (out, d) ← feed p step data d
        let (tag, _) ← finalize p d
        return result out tag)
      (modeWords p n ad.length data.length) := by
  have hcount : modeWords p n ad.length data.length =
      (n - 1) * ((p.iv.length + 7) / 8 + 2) + permuteWords n maxRounds +
        (associatedWords p n ad.length + (n - 1) * 1 +
          (data.length / p.rate * permuteWords n p.rounds +
            (n - 1) * ((data.length + 7) / 8 + 1) + permuteWords n maxRounds)) := by
    unfold modeWords
    ring
  rw [hcount]
  apply CheckedDraw.spends_bind (spends_setUp hn hp nonce d)
  intro d
  apply CheckedDraw.spends_bind (spends_absorbAssociated hn hp hrate ad d)
  intro d
  apply CheckedDraw.spends_bind (spends_feed hn hp hrate hstep data d)
  rintro ⟨out, d⟩
  exact CheckedDraw.spends_map (spends_finalize hn hp d) fun p => result out p.1

end Aead

/-! ### The cipher -/

namespace MaskedAead

variable {v : Aead.Variant} {n : Nat}

/-- The number of words that go into a message of `m` bytes with `a` bytes of associated data, in
    `n` shares. -/
def messageWords (v : Aead.Variant) (n a m : Nat) : Nat :=
  (n - 1) * ((v.keySize + 7) / 8 + 10) + 2 * permuteWords n maxRounds +
    Aead.associatedWords v.parameters n a +
    m / v.parameters.rate * permuteWords n v.parameters.rounds + (n - 1) * ((m + 7) / 8)

/-- A cipher is readied by refreshing its key and sharing a state. -/
theorem spends_ready (hn : 2 ≤ n ∧ n ≤ 4) (c : MaskedAead v n) :
    c.ready.Spends ((n - 1) * ((v.keySize + 7) / 8) + (n - 1) * 5) := by
  have hkey := CheckedDraw.spends_draw (MaskedKey.spends_randomize c.key)
  apply CheckedDraw.spends_bind hkey
  intro key
  exact CheckedDraw.spends_map (MaskedState.spends_new hn) fun state =>
    (MaskedAead.mk key, MaskedDuplex.mk state key)

theorem spends_readied (hn : 2 ≤ n ∧ n ≤ 4) (c : MaskedAead v n) {α : Type}
    {x : MaskedDuplex v.keySize n → CheckedDraw α} {a m : Nat}
    (hx : ∀ d, (x d).Spends (Aead.modeWords v.parameters n a m)) :
    CheckedDraw.Spends (do let (c, d) ← c.ready; return (← x d, c)) (messageWords v n a m) := by
  -- every initial value fits into one word
  have hiv : (v.parameters.iv.length + 7) / 8 = 1 := by
    cases v <;> rfl
  have hcount : messageWords v n a m = (n - 1) * ((v.keySize + 7) / 8) + (n - 1) * 5 +
      Aead.modeWords v.parameters n a m := by
    rw [messageWords, Aead.modeWords, hiv]
    ring
  rw [hcount]
  apply CheckedDraw.spends_bind (spends_ready hn c)
  rintro ⟨c, d⟩
  exact CheckedDraw.spends_map (hx d) (·, c)

/-- Encrypting a message and decrypting one draw exactly as many words as the variant, the number of
    shares and the two lengths ask for, and neither is refused. Nothing else has a say in the
    number: not the key, the nonce or the bytes, not whether the tag matches, and not the words
    themselves. So any two messages of the same lengths draw equally many. -/
theorem spends_messageWords (hn : 2 ≤ n ∧ n ≤ 4) (a m : Nat) (c : MaskedAead v n) (nonce : Nonce)
    {ad data : Bytes} (had : ad.length = a) (hdata : data.length = m) (tag : Tag) :
    (c.encrypt nonce ad data).Spends (messageWords v n a m) ∧
      (c.decrypt nonce ad data tag).Spends (messageWords v n a m) := by
  have hpos : 0 < n := by omega
  have hrate : 8 ∣ v.parameters.rate := by
    cases v <;> decide
  subst had
  subst hdata
  constructor
  · exact spends_readied hn c fun d => Aead.spends_message hpos v.wellFormed hrate
      Aead.spendsOnBlocks_encrypt nonce ad data d fun out tag => (out, tag)
  · exact spends_readied hn c fun d => Aead.spends_message hpos v.wellFormed hrate
      Aead.spendsOnBlocks_decrypt nonce ad data d fun out expected =>
        Decryption.ofTags expected tag out

theorem spends_messageWords_three_shares :
    (2 ≤ 3 ∧ 3 ≤ 4) ∧ messageWords .ascon80pq 3 9 17 = 818 ∧
      (MaskedAead.encrypt (v := .ascon80pq) ⟨Vector.replicate 3 (Vector.replicate _ 1)⟩ Nonce.zero
        (List.replicate 9 2) (List.replicate 17 3)).Spends (messageWords .ascon80pq 3 9 17) ∧
      (MaskedAead.decrypt (v := .ascon80pq) ⟨Vector.replicate 3 (Vector.replicate _ 1)⟩ Nonce.zero
        (List.replicate 9 2) (List.replicate 17 3) (Vector.replicate _ 0)).Spends
          (messageWords .ascon80pq 3 9 17) :=
  ⟨by decide, by decide, spends_messageWords (by decide) 9 17 _ _ List.length_replicate
    List.length_replicate _⟩

end MaskedAead

end Ascon
