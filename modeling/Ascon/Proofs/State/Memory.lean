import Ascon.Proofs.Session
import Ascon.Proofs.State.Bytes
import Ascon.Proofs.State.Window
import Ascon.State.Command
import Mathlib.Data.List.GetD

/-! # A state is an array of forty bytes

  The words of a state are a way to keep forty bytes. Whoever reads and writes a
  state through windows cannot tell it from a plain array.

  - `Memory` is the array, and its operations speak of single bytes: what stands
    in the window afterwards, and that nothing else has changed.
  - `Access` is what a caller who has a buffer can ask for. The array says when
    it is refused, what is in the array afterwards and what is handed back, and
    the state follows it (`obey_access`). A whole session of accesses then looks
    the same on both sides.
  - Operations that read and write at once may go through the window byte by
    byte, with one pass over the buffer (`overwriteEach`, `addEach`).
-/

namespace Ascon.State

open Session

/-! ### The array -/

/-- A plain array of forty bytes. -/
abbrev Memory := Vector UInt8 stateBytes

namespace Memory

/-- The array with byte `i` of the window made into `f i` of what it was, and all others kept. -/
def change (m : Memory) (offset len : Nat) (f : Nat → UInt8 → UInt8) : Memory :=
  Vector.ofFn fun p =>
    if offset ≤ p ∧ p < offset + len then f (p - offset) (m.get p) else m.get p

/-- The array with `data` in the place of the bytes at `offset`. -/
def replace (m : Memory) (offset : Nat) (data : Bytes) : Memory :=
  m.change offset data.length fun i _ => data.getD i 0

/-- The array with `data` combined into the bytes at `offset`. -/
def combine (m : Memory) (offset : Nat) (data : Bytes) : Memory :=
  m.change offset data.length fun i b => b ^^^ data.getD i 0

/-- The array with zeros in the place of the `len` bytes at `offset`. -/
def erase (m : Memory) (offset len : Nat) : Memory := m.change offset len fun _ _ => 0

/-- The `len` bytes at `offset`. -/
def window (m : Memory) (offset len : Nat) : Bytes := (m.toList.drop offset).take len

theorem get_change (m : Memory) (offset len : Nat) (f : Nat → UInt8 → UInt8)
    (p : Fin stateBytes) :
    (m.change offset len f).get p =
      if offset ≤ p ∧ p < offset + len then f (p - offset) (m.get p) else m.get p :=
  Vector.getElem_ofFn p.isLt

/-- Arrays are the same if they hold the same byte at every place. -/
theorem ext_get {m m' : Memory} (h : ∀ p, m.get p = m'.get p) : m = m' :=
  Vector.ext fun p hp => h ⟨p, hp⟩

end Memory

/-! ### The view of a state as an array -/

theorem get_toBytes (s : State) (p : Fin stateBytes) : s.toBytes.get p = s.byte p := by
  show (s.slice 0 stateBytes)[p.val] = s.byte p
  rw [slice, Vector.getElem_ofFn, Nat.zero_add]

theorem ofBytes_toBytes (s : State) : ofBytes s.toBytes = s := by
  have hlen : s.toBytes.toList.length = 40 := Vector.length_toList
  apply ext_byte
  intro p hp
  rw [ofBytes, byte_setFrom _ _ (by omega), if_pos (by omega), toBytes, getD_slice,
    if_pos (show p - 0 < stateBytes from hp), Nat.sub_zero, Nat.zero_add]

theorem toBytes_ofBytes (m : Memory) : (ofBytes m).toBytes = m := by
  have hlen : m.toList.length = 40 := Vector.length_toList
  apply Memory.ext_get
  intro p
  have hp : p.val < 40 := p.isLt
  rw [get_toBytes, ofBytes, byte_setFrom _ _ (by omega), if_pos (by omega), Nat.sub_zero,
    List.getD_eq_getElem _ _ (by omega)]
  rfl

section window

variable (s : State) {data : Bytes} {offset len : Nat}

theorem toBytes_setFrom (h : offset + data.length ≤ 40) :
    (s.setFrom offset data).toBytes = Memory.replace s.toBytes offset data := by
  apply Memory.ext_get
  intro p
  rw [get_toBytes, byte_setFrom s data h, Memory.replace, Memory.get_change, get_toBytes]

theorem toBytes_addFrom (h : offset + data.length ≤ 40) :
    (s.addFrom offset data).toBytes = Memory.combine s.toBytes offset data := by
  apply Memory.ext_get
  intro p
  rw [get_toBytes, byte_addFrom s data h, Memory.combine, Memory.get_change, get_toBytes]
  by_cases hp : offset ≤ p
  · by_cases hlt : p < offset + data.length
    · rw [if_pos hp, if_pos ⟨hp, hlt⟩]
    -- behind the data zeros are added
    · have hge : data.length ≤ p - offset := by omega
      rw [if_pos hp, if_neg fun hin => hlt hin.2, List.getD_eq_default _ _ hge, UInt8.xor_zero]
  · rw [if_neg hp, if_neg fun hin => hp hin.1, UInt8.xor_zero]

theorem toBytes_erase (h : offset + len ≤ 40) :
    (s.setFrom offset (List.replicate len 0)).toBytes = Memory.erase s.toBytes offset len := by
  have hlen : offset + (List.replicate len (0 : UInt8)).length ≤ 40 := by
    rwa [List.length_replicate]
  apply Memory.ext_get
  intro p
  rw [get_toBytes, byte_setFrom s _ hlen, Memory.erase, Memory.get_change, get_toBytes,
    List.length_replicate]
  by_cases hin : offset ≤ p ∧ p < offset + len
  · have hlt : p - offset < len := by omega
    rw [if_pos hin, if_pos hin, List.getD_replicate _ hlt]
  · rw [if_neg hin, if_neg hin]

theorem slice_eq_window (h : offset + len ≤ 40) :
    (s.slice offset len).toList = Memory.window s.toBytes offset len := by
  have hbytes : s.toBytes.toList.length = 40 := Vector.length_toList
  apply List.ext_getElem
  · rw [Memory.window, Vector.length_toList, List.length_take, List.length_drop, hbytes]
    omega
  · intro i hi _
    have hlt : i < len := by rwa [Vector.length_toList] at hi
    have hget := get_toBytes s ⟨offset + i, Nat.lt_of_lt_of_le (Nat.add_lt_add_left hlt _) h⟩
    simp only [Memory.window, slice, Vector.getElem_toList, Vector.getElem_ofFn,
      List.getElem_take, List.getElem_drop]
    exact hget.symm

end window

/-! ### Accesses -/

/-- What a caller who has a buffer can ask of the bytes of a state. -/
inductive Access where
  | overwrite (data : Bytes) (offset : Nat)
  | add (data : Bytes) (offset : Nat)
  | zero (offset len : Nat)
  /-- Fill the buffer with the bytes at `offset`. -/
  | extract (offset : Nat)
  /-- Fill the buffer with the bytes at `offset` combined with `data`. -/
  | extractAdd (data : Bytes) (offset : Nat)
  /-- The same, and put `data` in the place of these bytes. -/
  | extractOverwriteInto (data : Bytes) (offset : Nat)
  /-- The same, with the input in the buffer. -/
  | extractOverwrite (offset : Nat)
  /-- Combine the buffer into the bytes at `offset`, and fill it with the outcome. -/
  | addExtract (offset : Nat)
deriving Repr

namespace Access

/-- The access as a command, for a caller with the given buffer. -/
def command (buffer : Bytes) : Access → Command
  | .overwrite data offset => .overwrite data offset
  | .add data offset => .add data offset
  | .zero offset len => .zero offset len
  | .extract offset => .extract offset buffer.length
  | .extractAdd data offset => .extractAdd data buffer.length offset
  | .extractOverwriteInto data offset => .extractOverwriteInto data buffer.length offset
  | .extractOverwrite offset => .extractOverwrite buffer offset
  | .addExtract offset => .addExtract buffer offset

/-- Where the window of an access begins. -/
def offset : Access → Nat
  | .overwrite _ offset | .add _ offset | .zero offset _ | .extract offset
  | .extractAdd _ offset | .extractOverwriteInto _ offset | .extractOverwrite offset
  | .addExtract offset => offset

/-- How many bytes the window of an access has. -/
def length (buffer : Bytes) : Access → Nat
  | .overwrite data _ | .add data _ | .extractAdd data _ | .extractOverwriteInto data _ =>
    data.length
  | .zero _ len => len
  | .extract _ | .extractOverwrite _ | .addExtract _ => buffer.length

/-- Whether an input that comes apart from the buffer is as long as the buffer. -/
def fits (buffer : Bytes) : Access → Bool
  | .extractAdd data _ | .extractOverwriteInto data _ => data.length == buffer.length
  | _ => true

/-- The array after an access. -/
def update (buffer : Bytes) (m : Memory) : Access → Memory
  | .overwrite data offset | .extractOverwriteInto data offset => m.replace offset data
  | .extractOverwrite offset => m.replace offset buffer
  | .add data offset => m.combine offset data
  | .addExtract offset => m.combine offset buffer
  | .zero offset len => m.erase offset len
  | .extract _ | .extractAdd _ _ => m

/-- What an access hands back. -/
def output? (buffer : Bytes) (m : Memory) : Access → Option Bytes
  | .extract offset => some (m.window offset buffer.length)
  | .extractAdd data offset | .extractOverwriteInto data offset =>
    some (xorBytes (m.window offset data.length) data)
  | .extractOverwrite offset | .addExtract offset =>
    some (xorBytes (m.window offset buffer.length) buffer)
  | .overwrite _ _ | .add _ _ | .zero _ _ => none

end Access

/-- What an array does with an access. The lengths of the buffers are compared first. -/
def Memory.obey (buffer : Bytes) (m : Memory) (a : Access) :
    Except Fault (Option Bytes × Memory) :=
  if a.fits buffer then
    if a.offset + a.length buffer ≤ stateBytes then
      .ok (a.output? buffer m, a.update buffer m)
    else .error (.window a.offset (a.length buffer))
  else .error .bufferLengths

theorem Memory.obey_of_fits {buffer : Bytes} (m : Memory) {a : Access} (h : a.fits buffer) :
    m.obey buffer a =
      if a.offset + a.length buffer ≤ stateBytes then
        .ok (a.output? buffer m, a.update buffer m)
      else .error (.window a.offset (a.length buffer)) :=
  if_pos h

section checks

variable {α β : Type} {view : α → β}

/-- A value behind the check of a window, seen through a view. -/
theorem map_window {offset len : Nat} {a : α} {b : β} (h : offset + len ≤ 40 → view a = b) :
    (checkWindow offset len >>= fun _ => pure a).map view =
      if offset + len ≤ stateBytes then .ok b else .error (.window offset len) := by
  by_cases hle : offset + len ≤ stateBytes
  · rw [checkWindow_of_le hle, if_pos hle, ← h hle]
    rfl
  · rw [checkWindow_of_lt (Nat.lt_of_not_le hle), if_neg hle]
    rfl

/-- A computation behind the comparison of two buffers, seen through a view. -/
theorem map_room {data buffer : Bytes} {x : Except Fault α} {y : Except Fault β}
    (h : x.map view = y) :
    (checkRoom data buffer.length >>= fun _ => x).map view =
      if data.length == buffer.length then y else .error .bufferLengths := by
  by_cases hlen : data.length = buffer.length
  · rw [if_pos (beq_iff_eq.2 hlen), ← h, checkRoom, if_pos hlen]
    rfl
  · rw [if_neg fun heq => hlen (beq_iff_eq.1 heq), checkRoom, if_neg hlen]
    rfl

end checks

/-- A state does with an access what the array of its bytes does. -/
theorem obey_access (s : State) (buffer : Bytes) (a : Access) :
    (s.obey (a.command buffer)).map (Prod.map id toBytes) = Memory.obey buffer s.toBytes a := by
  -- what is read, combined with what comes in
  have hread : ∀ {data : Bytes} {offset : Nat}, offset + data.length ≤ 40 →
      some (xorBytes (s.slice offset data.length).toList data) =
        some (xorBytes (Memory.window s.toBytes offset data.length) data) := by
    intro data offset h
    rw [slice_eq_window s h]
  cases a with
  | overwrite data offset =>
    rw [Memory.obey_of_fits _ rfl]
    simp only [Access.command, obey, overwriteBytes, bind_assoc, pure_bind]
    exact map_window fun h => Prod.ext rfl (toBytes_setFrom s h)
  | add data offset =>
    rw [Memory.obey_of_fits _ rfl]
    simp only [Access.command, obey, addBytes, bind_assoc, pure_bind]
    exact map_window fun h => Prod.ext rfl (toBytes_addFrom s h)
  | zero offset len =>
    rw [Memory.obey_of_fits _ rfl]
    simp only [Access.command, obey, overwriteZeroes, bind_assoc, pure_bind]
    exact map_window fun h => Prod.ext rfl (toBytes_erase s h)
  | extract offset =>
    rw [Memory.obey_of_fits _ rfl]
    simp only [Access.command, obey, extractBytes, bind_assoc, pure_bind]
    exact map_window fun h => Prod.ext (congrArg some (slice_eq_window s h)) rfl
  | extractAdd data offset =>
    simp only [Access.command, obey, extractAdd, bind_assoc, pure_bind]
    exact map_room (map_window fun h => Prod.ext (hread h) rfl)
  | extractOverwriteInto data offset =>
    simp only [Access.command, obey, extractOverwriteInto, extractOverwrite, bind_assoc, pure_bind]
    exact map_room (map_window fun h => Prod.ext (hread h) (toBytes_setFrom s h))
  | extractOverwrite offset =>
    rw [Memory.obey_of_fits _ rfl]
    simp only [Access.command, obey, extractOverwrite, bind_assoc, pure_bind]
    exact map_window fun h => Prod.ext (hread h) (toBytes_setFrom s h)
  | addExtract offset =>
    rw [Memory.obey_of_fits _ rfl]
    simp only [Access.command, obey, addExtract, bind_assoc, pure_bind]
    refine map_window fun h => Prod.ext ?_ (toBytes_addFrom s h)
    exact (congrArg some (slice_addFrom s h)).trans (hread h)

/-! ### Sessions -/

/-- One access by a caller, to the state and its buffer. -/
def reach (object : State × Bytes) (a : Access) : Except Fault (Option Bytes × (State × Bytes)) :=
  obeyInto obey id object (a.command object.2)

/-- One access by a caller, to an array and its buffer. -/
def Memory.reach (object : Memory × Bytes) (a : Access) :
    Except Fault (Option Bytes × (Memory × Bytes)) :=
  obeyInto (Memory.obey object.2) id object a

/-- What a state and a buffer become is what the array and the buffer become. -/
theorem reach_eq (s : State) (buffer : Bytes) (a : Access) :
    reach (s, buffer) a =
      (Memory.obey buffer s.toBytes a).map fun p => (p.1, ofBytes p.2, p.1.getD buffer) := by
  rw [← obey_access]
  cases hobey : s.obey (a.command buffer) with
  | error fault => exact obeyInto_of_error hobey
  | ok p =>
    obtain ⟨out?, next⟩ := p
    show _ = Except.ok (out?, ofBytes next.toBytes, out?.getD buffer)
    rw [ofBytes_toBytes]
    exact obeyInto_of_ok hobey

/-- What becomes of a state and a buffer with an access: they change as the array says, or the
    access is refused and nothing has changed. -/
theorem perform_reach (s : State) (buffer : Bytes) (kept : State × Bytes) (a : Access) :
    perform reach ⟨(s, buffer), kept⟩ (.command a) =
      if a.fits buffer then
        if a.offset + a.length buffer ≤ stateBytes then
          (.reply (a.output? buffer s.toBytes),
            ⟨(ofBytes (a.update buffer s.toBytes), (a.output? buffer s.toBytes).getD buffer), kept⟩)
        else (.refused (.window a.offset (a.length buffer)), ⟨(s, buffer), kept⟩)
      else (.refused .bufferLengths, ⟨(s, buffer), kept⟩) := by
  have hreach := reach_eq s buffer a
  by_cases hfits : a.fits buffer
  · rw [if_pos hfits]
    rw [Memory.obey_of_fits _ hfits] at hreach
    by_cases hle : a.offset + a.length buffer ≤ stateBytes
    · rw [if_pos hle] at hreach ⊢
      exact perform_of_ok hreach
    · rw [if_neg hle] at hreach ⊢
      exact perform_of_error hreach
  · rw [if_neg hfits]
    rw [Memory.obey, if_neg hfits] at hreach
    exact perform_of_error hreach

theorem reach_view (object : State × Bytes) (a : Access) :
    (reach object a).map (Prod.map id (Prod.map toBytes id)) =
      Memory.reach (Prod.map toBytes id object) a := by
  obtain ⟨s, buffer⟩ := object
  rw [reach_eq]
  show _ = (Memory.obey buffer s.toBytes a).map fun p => (p.1, p.2, p.1.getD buffer)
  cases Memory.obey buffer s.toBytes a with
  | error fault => rfl
  | ok p =>
    show Except.ok (p.1, (ofBytes p.2).toBytes, p.1.getD buffer) = _
    rw [toBytes_ofBytes]
    rfl

/-- A session of accesses to a state is a session of accesses to the array of its bytes. -/
theorem trace_reach (run : Session (State × Bytes)) (steps : List (Step Access)) :
    (trace reach run steps).map (Prod.map id (Prod.map toBytes id)) =
      trace Memory.reach (run.view (Prod.map toBytes id)) steps := by
  have htrace : (trace reach run steps).map (Prod.map (Answer.map id) (Prod.map toBytes id)) =
      trace Memory.reach (run.view (Prod.map toBytes id)) (steps.map (Step.map id)) :=
    trace_view (P := fun _ => True) (fun object a _ => reach_view object a) run
      fun _ _ => trivial
  have hid : steps.map (Step.map id) = steps := by
    rw [List.map_congr_left fun step _ => Step.map_id step, List.map_id']
  rwa [Answer.map_id, hid] at htrace

/-! ### One pass over the buffer -/

/-- Reads and replaces byte by byte: each byte of the state is combined with one of the input, and
    the input byte takes its place, before the next one is looked at. -/
def overwriteEach (s : State) (p : Nat) : Bytes → Bytes × State
  | [] => ([], s)
  | b :: data =>
    let rest := (s.setByte p b).overwriteEach (p + 1) data
    ((s.byte p ^^^ b) :: rest.1, rest.2)

/-- Combines and reads byte by byte: each byte of the input is combined into the state, and the
    outcome is read, before the next one is looked at. -/
def addEach (s : State) (p : Nat) : Bytes → Bytes × State
  | [] => ([], s)
  | b :: data =>
    let next := s.addByte p b
    let rest := next.addEach (p + 1) data
    (next.byte p :: rest.1, rest.2)

/-- The first byte of a run of bytes stands in front of all others. -/
theorem toList_slice_succ (s : State) (p len : Nat) :
    (s.slice p (len + 1)).toList = s.byte p :: (s.slice (p + 1) len).toList := by
  unfold slice
  have hshift : (fun i : Fin len => s.byte (p + i.succ)) =
      fun i : Fin len => s.byte (p + 1 + i) := by
    funext i
    rw [Fin.val_succ, Nat.add_comm i.val 1, ← Nat.add_assoc]
  rw [Vector.toList_ofFn, Vector.toList_ofFn, List.ofFn_succ, hshift]
  rfl

theorem overwriteEach_eq (s : State) {data : Bytes} {p : Nat} (h : p + data.length ≤ 40) :
    s.overwriteEach p data =
      (xorBytes (s.slice p data.length).toList data, s.setFrom p data) := by
  induction data generalizing s p with
  | nil => rfl
  | cons b data ih =>
    have hlen : p + 1 + data.length ≤ 40 := by
      rw [List.length_cons] at h
      omega
    -- the byte that has just been written is not read again
    have hbehind : (s.setByte p b).slice (p + 1) data.length = s.slice (p + 1) data.length := by
      apply Vector.ext
      intro i hi
      rw [slice, slice, Vector.getElem_ofFn, Vector.getElem_ofFn, byte_setByte s b (by omega),
        if_neg (by omega)]
    rw [overwriteEach, ih _ hlen, hbehind, List.length_cons, toList_slice_succ]
    rfl

theorem addEach_eq (s : State) {data : Bytes} {p : Nat} (h : p + data.length ≤ 40) :
    s.addEach p data = (xorBytes (s.slice p data.length).toList data, s.addFrom p data) := by
  induction data generalizing s p with
  | nil => rfl
  | cons b data ih =>
    have hlen : p + 1 + data.length ≤ 40 := by
      rw [List.length_cons] at h
      omega
    have hbehind : (s.addByte p b).slice (p + 1) data.length = s.slice (p + 1) data.length := by
      apply Vector.ext
      intro i hi
      rw [slice, slice, Vector.getElem_ofFn, Vector.getElem_ofFn, byte_addByte s b (by omega),
        if_neg (by omega)]
    have hread : (s.addByte p b).byte p = s.byte p ^^^ b := by
      rw [byte_addByte s b (by omega), if_pos rfl]
    rw [addEach, ih _ hlen, hbehind, hread, List.length_cons, toList_slice_succ]
    rfl

/-- The operation goes through its window byte by byte. -/
theorem extractOverwrite_eq (s : State) (data : Bytes) (offset : Nat) :
    s.extractOverwrite data offset =
      (checkWindow offset data.length).map fun _ => s.overwriteEach offset data := by
  by_cases h : offset + data.length ≤ 40
  · rw [extractOverwrite_of_le s h, checkWindow_of_le h, Except.map, overwriteEach_eq s h]
  · rw [extractOverwrite, checkWindow_of_lt (Nat.lt_of_not_le h)]
    rfl

/-- The operation goes through its window byte by byte. -/
theorem addExtract_eq (s : State) (data : Bytes) (offset : Nat) :
    s.addExtract data offset =
      (checkWindow offset data.length).map fun _ => s.addEach offset data := by
  by_cases h : offset + data.length ≤ 40
  · rw [addExtract_of_le s h, checkWindow_of_le h, Except.map, addEach_eq s h, slice_addFrom s h]
  · rw [addExtract, checkWindow_of_lt (Nat.lt_of_not_le h)]
    rfl

/-- What was combined into a window and read is taken apart again from the same state, which ends
    up the same. -/
theorem extractOverwrite_undoes_addExtract (s : State) (data : Bytes) (offset : Nat) :
    (s.addExtract data offset).bind (fun p => s.extractOverwrite p.1 offset) =
      (s.addExtract data offset).map fun p => (data, p.2) := by
  by_cases h : offset + data.length ≤ 40
  · have hsum : offset + (xorBytes (s.slice offset data.length).toList data).length ≤ 40 := by
      rwa [length_xorBytes_slice]
    have hread : (s.slice offset data.length).toList.length = data.length := Vector.length_toList
    rw [addExtract_of_le s h, slice_addFrom s h]
    show s.extractOverwrite _ offset = .ok (data, s.addFrom offset data)
    rw [extractOverwrite_of_le s hsum, length_xorBytes_slice, xorBytes_cancel hread,
      addFrom_eq_setFrom s h]
  · rw [addExtract, checkWindow_of_lt (Nat.lt_of_not_le h)]
    rfl

/-- To everyone who reaches a state through windows it is an array of forty bytes. Each access is
    refused, with nothing changed, unless the buffers have the same length and the window lies
    inside the array; otherwise it does to the bytes and to the buffer what the array says, and so
    it goes on over any session. The operations that read and write at once may be carried out
    byte by byte, and the one undoes the other. -/
theorem refines_array :
    (∀ s : State, ofBytes s.toBytes = s) ∧ (∀ m : Memory, (ofBytes m).toBytes = m) ∧
      (∀ (s : State) (buffer : Bytes) (kept : State × Bytes) (a : Access),
        perform reach ⟨(s, buffer), kept⟩ (.command a) =
          if a.fits buffer then
            if a.offset + a.length buffer ≤ stateBytes then
              (.reply (a.output? buffer s.toBytes),
                ⟨(ofBytes (a.update buffer s.toBytes), (a.output? buffer s.toBytes).getD buffer),
                  kept⟩)
            else (.refused (.window a.offset (a.length buffer)), ⟨(s, buffer), kept⟩)
          else (.refused .bufferLengths, ⟨(s, buffer), kept⟩)) ∧
      (∀ (run : Session (State × Bytes)) (steps : List (Step Access)),
        (trace reach run steps).map (Prod.map id (Prod.map toBytes id)) =
          trace Memory.reach (run.view (Prod.map toBytes id)) steps) ∧
      (∀ (s : State) (data : Bytes) (offset : Nat),
        s.extractOverwrite data offset =
            (checkWindow offset data.length).map (fun _ => s.overwriteEach offset data) ∧
          s.addExtract data offset =
            (checkWindow offset data.length).map (fun _ => s.addEach offset data) ∧
          (s.addExtract data offset).bind (fun p => s.extractOverwrite p.1 offset) =
            (s.addExtract data offset).map fun p => (data, p.2)) :=
  ⟨ofBytes_toBytes, toBytes_ofBytes, perform_reach, trace_reach, fun s data offset =>
    ⟨extractOverwrite_eq s data offset, addExtract_eq s data offset,
      extractOverwrite_undoes_addExtract s data offset⟩⟩

end Ascon.State
