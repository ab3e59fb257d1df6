import Ascon.Proofs.Aead.Unchecked
import Ascon.Proofs.State.Absorb

/-! # Encryption on padded blocks

  The mode never builds a padded message. It works through the full blocks,
  takes what is left as it is, and adds the padding byte behind it. Here the
  mode is written down as it is defined on paper instead: messages are padded
  first and cut into blocks afterwards, and whatever goes into the state is
  forty bytes long.

  - A padded message consists of the full blocks of the message and of one
    more block, which begins with the rest and goes on with the padding byte.
    Adding this block is adding the rest and then the padding byte, since zeros
    may be added anywhere.
  - So every stage of the mode has the value that the definition gives it, and
    these values make up the ciphertext and the tag.
-/

namespace Ascon

/-! ### Padded messages -/

namespace Blocks

/-- A message with the padding byte behind it, and zeros up to the next multiple of the rate. -/
def pad (rate : Nat) (data : Bytes) : Bytes :=
  (data ++ [padByte]).rightpad ((data.length / rate + 1) * rate) 0

/-- The blocks of a padded message. -/
def padded (rate : Nat) (data : Bytes) : List Bytes := (of rate (pad rate data)).full

/-- The last block of a padded message, of which the given bytes belong to the message. -/
def lastBlock (rate : Nat) (rest : Bytes) : Bytes :=
  rest ++ padByte :: List.replicate (rate - 1 - rest.length) 0

variable {rate : Nat}

theorem pad_eq (hrate : 0 < rate) (data : Bytes) :
    pad rate data = data ++ padByte :: List.replicate (rate - 1 - data.length % rate) 0 := by
  have hmod := Nat.mod_lt data.length hrate
  have hdiv := Nat.mod_add_div' data.length rate
  have hnext := Nat.add_one_mul (data.length / rate) rate
  have hzeros : (data.length / rate + 1) * rate - (data.length + 1) =
      rate - 1 - data.length % rate := by omega
  unfold pad List.rightpad
  rw [List.length_append, List.length_singleton, hzeros, List.append_assoc]
  rfl

/-- The length of a padded message is the least multiple of the rate that exceeds the length of the
    message. -/
theorem length_pad_least (hrate : 0 < rate) (data : Bytes) :
    rate ∣ (pad rate data).length ∧ data.length < (pad rate data).length ∧
      ∀ n, rate ∣ n → data.length < n → (pad rate data).length ≤ n := by
  have hmod := Nat.mod_lt data.length hrate
  have hdiv := Nat.mod_add_div' data.length rate
  have hnext := Nat.add_one_mul (data.length / rate) rate
  have hlen : (pad rate data).length = (data.length / rate + 1) * rate := by
    rw [pad_eq hrate, List.length_append, List.length_cons, List.length_replicate]
    omega
  rw [hlen]
  refine ⟨Nat.dvd_mul_left .., by omega, ?_⟩
  rintro n ⟨k, rfl⟩ hn
  rw [Nat.mul_comm rate k]
  exact Nat.mul_le_mul_right _ (Nat.div_lt_of_lt_mul hn)

/-- A padded message is cut into the full blocks of the message and one more. Nothing is left. -/
theorem of_pad (hrate : 0 < rate) (data : Bytes) :
    of rate (pad rate data) =
      ⟨(of rate data).full ++ [lastBlock rate (of rate data).rest], []⟩ := by
  have hrest := length_rest rate data
  have hmod := Nat.mod_lt data.length hrate
  have hfill : (of rate data).rest.length +
      (padByte :: List.replicate (rate - 1 - data.length % rate) 0).length = rate := by
    rw [List.length_cons, List.length_replicate]
    omega
  rw [pad_eq hrate, of_append_of_eq hrate data hfill, lastBlock, hrest]

theorem padded_eq (hrate : 0 < rate) (data : Bytes) :
    padded rate data = (of rate data).full ++ [lastBlock rate (of rate data).rest] := by
  rw [padded, of_pad hrate]

/-- A message that ends with a block is padded by a whole block. -/
example : padded 4 [1, 2, 3, 4] = [[1, 2, 3, 4], [0x80, 0, 0, 0]] := by decide

end Blocks

/-! ### The last block in the state -/

namespace State

/-- To add the last block of a padded message is to add the rest and the padding byte. -/
theorem xor_holding_lastBlock (s : State) {rate : Nat} {rest : Bytes} (hrest : rest.length < rate)
    (hrate : rate ≤ 40) :
    s ^^^ holding 0 (Blocks.lastBlock rate rest) =
      (s.addFrom 0 rest).addFrom rest.length [padByte] := by
  have hbehind : rest.length +
      (padByte :: List.replicate (rate - 1 - rest.length) (0 : UInt8)).length ≤ 40 := by
    rw [List.length_cons, List.length_replicate]
    omega
  have hzeros : rest.length + 1 + (rate - 1 - rest.length) ≤ 40 := by omega
  have hfront : 0 + rest.length ≤ 40 := by omega
  rw [Blocks.lastBlock, xor_holding_append s hbehind, xor_holding s hfront, addFrom,
    addFrom_zeros _ hzeros]
  rfl

end State

/-! ### The mode on padded blocks -/

namespace Aead

variable {p : Parameters}

/-- The state that is started with a key and a nonce. -/
def startState (p : Parameters) (key : Vector UInt8 p.keySize) (nonce : Nonce) : State :=
  (State.holding 0 (p.iv ++ key.toList ++ nonce.toList)).permute12 ^^^
    .holding (stateBytes - p.keySize) key.toList

/-- Takes in the associated data, if there are any, and the separator. -/
def associate (p : Parameters) (ad : Bytes) (s : State) : State :=
  (if ad.isEmpty then s else s.absorbBlocks p.rounds (Blocks.padded p.rate ad)) ^^^
    .holding (stateBytes - 1) [separatorByte]

/-- Encrypts blocks, each but the last one followed by the permutation. Of the last block `tail`
    bytes are given out. -/
def encryptBlocks (p : Parameters) (tail : Nat) : List Bytes → State → Bytes × State
  | [], s => ([], s)
  | [block], s =>
    let s := s ^^^ .holding 0 block
    ((s.slice 0 tail).toList, s)
  | block :: blocks, s =>
    let s := s ^^^ .holding 0 block
    let (rest, next) := encryptBlocks p tail blocks (s.lastRounds p.rounds)
    ((s.slice 0 p.rate).toList ++ rest, next)

/-- The bytes of the tag. -/
def tagBytesOf (p : Parameters) (key : Vector UInt8 p.keySize) (s : State) : Bytes :=
  xorBytes (((s ^^^ .holding p.rate key.toList).permute12).slice tagOffset tagBytes).toList
    (keyTail key)

/-- Encryption on padded blocks. The result is the ciphertext and the bytes of the tag. -/
def encryptPadded (p : Parameters) (key : Vector UInt8 p.keySize) (nonce : Nonce)
    (ad data : Bytes) : Bytes × Bytes :=
  let s := associate p ad (startState p key nonce)
  let (out, s) := encryptBlocks p (data.length % p.rate) (Blocks.padded p.rate data) s
  (out, tagBytesOf p key s)

/-! ### The stages -/

theorem setUp_eq (hp : p.WellFormed) (key : Vector UInt8 p.keySize) (nonce : Nonce) :
    setUp p nonce (PlainDuplex.new key).unchecked =
      (⟨startState p key nonce, key⟩ : UncheckedDuplex p.keySize) := by
  have hiv : (p.iv ++ key.toList).length = nonceOffset := by
    rw [List.length_append, Vector.length_toList, hp.start_fits]
  have hkey : stateBytes - p.keySize + key.toList.length ≤ 40 := by
    have hfits := hp.key_fits
    rw [stateBytes] at hfits
    rw [Vector.length_toList, stateBytes]
    omega
  unfold startState
  rw [State.xor_holding _ hkey, State.holding, State.setFrom_append, State.setFrom_append, hiv,
    Nat.zero_add, Nat.zero_add]
  rfl

/-- Full blocks are taken in one after the other. -/
theorem feedFull_absorb (hp : p.WellFormed) {blocks : List Bytes}
    (hlen : ∀ block ∈ blocks, block.length = p.rate) (d : UncheckedDuplex p.keySize) :
    feedFull p absorbBlock blocks d =
      (([] : Bytes), { d with state := d.state.absorbBlocks p.rounds blocks }) := by
  induction blocks generalizing d with
  | nil => rfl
  | cons block blocks ih =>
    have hblock : 0 + block.length ≤ 40 := by
      have := hlen block List.mem_cons_self
      have hfits := hp.key_fits
      rw [stateBytes] at hfits
      omega
    have hblocks := ih fun b hb => hlen b (List.mem_cons_of_mem _ hb)
    unfold State.absorbBlocks
    rw [feedFull_cons, List.foldl_cons, State.xor_holding _ hblock, hblocks]
    rfl

/-- Data are taken in as the blocks of the padded data, but for the last permutation. -/
theorem absorb_eq (hp : p.WellFormed) (data : Bytes) (d : UncheckedDuplex p.keySize) :
    absorb p data d =
      ({ d with
        state := d.state.absorbBlocks p.rounds (Blocks.of p.rate data).full ^^^
          .holding 0 (Blocks.lastBlock p.rate (Blocks.of p.rate data).rest) } :
        UncheckedDuplex p.keySize) := by
  have hrest := Blocks.length_rest_lt hp.rate_pos data
  have hrate : p.rate ≤ 40 := hp.rate_le
  have hlen : ∀ block ∈ (Blocks.of p.rate data).full, block.length = p.rate :=
    Blocks.length_of_mem
  have hfull := feedFull_absorb hp hlen d
  have hfed : (feed p absorbBlock data d).2 = _ := congrArg Prod.snd (feed_eq data d)
  simp only [hfull] at hfed
  rw [State.xor_holding_lastBlock _ hrest hrate]
  exact hfed

theorem absorbAssociated_eq (hp : p.WellFormed) (ad : Bytes) (d : UncheckedDuplex p.keySize) :
    absorbAssociated p ad d =
      ({ d with state := associate p ad d.state } : UncheckedDuplex p.keySize) := by
  have hsep : stateBytes - 1 + [separatorByte].length ≤ 40 := by decide
  unfold associate
  rw [State.xor_holding _ hsep]
  cases ad with
  | nil => rfl
  | cons b ad =>
    have hpadded := Blocks.padded_eq hp.rate_pos (b :: ad)
    unfold absorbAssociated
    rw [absorb_eq hp, hpadded, State.absorbBlocks_concat]
    rfl

theorem encryptBlocks_cons (tail : Nat) (block : Bytes) {blocks : List Bytes} (h : blocks ≠ [])
    (s : State) :
    encryptBlocks p tail (block :: blocks) s =
      let next := s ^^^ .holding 0 block
      let rest := encryptBlocks p tail blocks (next.lastRounds p.rounds)
      ((next.slice 0 p.rate).toList ++ rest.1, rest.2) := by
  cases blocks with
  | nil => exact absurd rfl h
  | cons next blocks => rfl

/-- Full blocks are encrypted one after the other, whatever the last block is. -/
theorem feedFull_encrypt (hp : p.WellFormed) (key : Vector UInt8 p.keySize) {blocks : List Bytes}
    (hlen : ∀ block ∈ blocks, block.length = p.rate) (s : State) :
    ∃ out t, feedFull p (KeyedDuplex.encryptBytes · 0) blocks (⟨s, key⟩ : UncheckedDuplex _) =
        (out, ⟨t, key⟩) ∧
      ∀ tail last, encryptBlocks p tail (blocks ++ [last]) s =
        (out ++ ((t ^^^ .holding 0 last).slice 0 tail).toList, t ^^^ .holding 0 last) := by
  induction blocks generalizing s with
  | nil => exact ⟨[], s, rfl, fun _ _ => rfl⟩
  | cons block blocks ih =>
    have hblock : block.length = p.rate := hlen block List.mem_cons_self
    have hfits : 0 + block.length ≤ 40 := by
      have hrate : p.rate ≤ 40 := hp.rate_le
      omega
    have hblocks : ∀ block ∈ blocks, block.length = p.rate :=
      fun b hb => hlen b (List.mem_cons_of_mem _ hb)
    obtain ⟨out, t, hfed, hlast⟩ := ih hblocks ((s.addFrom 0 block).lastRounds p.rounds)
    refine ⟨((s.addFrom 0 block).slice 0 block.length).toList ++ out, t, ?_, ?_⟩
    · have hcons := feedFull_cons (p := p) (f := (KeyedDuplex.encryptBytes · 0)) block blocks
        (⟨s, key⟩ : UncheckedDuplex _)
      rw [hcons]
      exact congrArg (fun r : Bytes × UncheckedDuplex _ =>
        (((s.addFrom 0 block).slice 0 block.length).toList ++ r.1, r.2)) hfed
    · intro tail last
      have hne : blocks ++ [last] ≠ [] := by simp
      rw [List.cons_append, encryptBlocks_cons tail block hne, State.xor_holding s hfits]
      simp only [hlast, List.append_assoc]
      rw [hblock]

/-- A message is encrypted as the blocks of the padded message. -/
theorem feed_encrypt (hp : p.WellFormed) (data : Bytes) (d : UncheckedDuplex p.keySize) :
    feed p (KeyedDuplex.encryptBytes · 0) data d =
      let sent := encryptBlocks p (data.length % p.rate) (Blocks.padded p.rate data) d.state
      (sent.1, ({ d with state := sent.2 } : UncheckedDuplex p.keySize)) := by
  have hrest := Blocks.length_rest_lt hp.rate_pos data
  have hrate : p.rate ≤ 40 := hp.rate_le
  have hpad : (Blocks.of p.rate data).rest.length + [padByte].length ≤ 40 := by
    rw [List.length_singleton]
    omega
  have hlen : ∀ block ∈ (Blocks.of p.rate data).full, block.length = p.rate :=
    Blocks.length_of_mem
  obtain ⟨out, t, hfed, hlast⟩ := feedFull_encrypt hp d.key hlen d.state
  rw [feed_eq, Blocks.padded_eq hp.rate_pos, hlast, ← Blocks.length_rest,
    State.xor_holding_lastBlock _ hrest hrate]
  -- the padding byte goes in behind the bytes that are given out
  have hfront : 0 + (Blocks.of p.rate data).rest.length ≤ (Blocks.of p.rate data).rest.length := by
    omega
  have hshown := State.slice_addFrom_of_le (t.addFrom 0 (Blocks.of p.rate data).rest) hpad hfront
  simp only [hfed, hshown]
  rfl

/-- The tag is read behind the last permutation. -/
theorem finalize_eq (hp : p.WellFormed) (hkey : 16 ≤ p.keySize) (d : UncheckedDuplex p.keySize) :
    (Id.run (finalize p d)).1.toList = tagBytesOf p d.key d.state := by
  have hfits : p.rate + d.key.toList.length ≤ 40 := by
    rw [Vector.length_toList]
    exact hp.key_fits
  have htail : (keyTail d.key).length = 16 := by
    rw [length_keyTail]
    omega
  have hroom : tagOffset + (keyTail d.key).length ≤ 40 := by
    rw [htail]
    decide
  have hread := State.slice_addFrom ((d.state.addFrom p.rate d.key.toList).lastRounds maxRounds)
    hroom
  rw [htail] at hread
  unfold tagBytesOf
  rw [State.xor_holding _ hfits]
  exact hread

/-! ### The cipher -/

/-- Encryption is the mode on padded blocks. Associated data, unless they are empty, and the message
    are padded and cut into blocks; the key goes in behind the first permutation and around the
    last one; and of the last block of the message as many bytes are given out as belong to it. -/
theorem encrypt_eq_encryptPadded {v : Variant} (c : Aead v) (nonce : Nonce) (ad data : Bytes) :
    (c.encrypt nonce ad data).map (Prod.map id Vector.toList) =
      .ok (encryptPadded v.parameters c.key nonce ad data) := by
  have hp := v.wellFormed
  have hkey : 16 ≤ v.keySize := by cases v <;> decide
  have hstages : encryptWith v.parameters nonce ad data (PlainDuplex.new c.key).unchecked =
      let started : UncheckedDuplex _ := setUp v.parameters nonce (PlainDuplex.new c.key).unchecked
      let readied : UncheckedDuplex _ := absorbAssociated v.parameters ad started
      let sent : Bytes × UncheckedDuplex _ :=
        feed v.parameters (KeyedDuplex.encryptBytes · 0) data readied
      (sent.1, (Id.run (finalize v.parameters sent.2)).1) := rfl
  simp only [setUp_eq hp, absorbAssociated_eq hp, feed_encrypt hp] at hstages
  rw [encrypt_unchecked, hstages]
  simp only [Except.map, Prod.map, id, encryptPadded]
  generalize encryptBlocks v.parameters (data.length % v.parameters.rate) _ _ = sent
  have htag := finalize_eq hp hkey ⟨sent.2, c.key⟩
  exact congrArg (fun tag => Except.ok (sent.1, tag)) htag

end Aead

end Ascon
