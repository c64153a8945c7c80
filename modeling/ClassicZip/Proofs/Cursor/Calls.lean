import ClassicZip.Proofs.Record.Layouts

/-!
# Runs of calls on one cursor

A parser moves one cursor through its buffer by many calls, and may go on with it where one of them
fails. Here the calls move their cursor in place, which comes to the same as handing out a new one
(`Call.run_inPlace`). `Call.step_faithful` says what one call does and `steps_faithful` what every
sequence of them does: what its reads consumed is the buffer from where the cursor was to where it
is.
-/

namespace ClassicZip.Cursor

open Bytes

-- ---------------------------------------------------------------------------
-- Calls that move their cursor in place
-- ---------------------------------------------------------------------------

/-- A computation on a cursor that it moves in place. Behind a fault the cursor stands where it was
moved to before. -/
abbrev Reading (α : Type) := EStateM ReadFault Cursor α

/-- What a call that hands out a new cursor leaves to one who keeps a single cursor: the new one,
or after a fault the old one. -/
def settle {α : Type} (cursor : Cursor) :
    Except ReadFault (α × Cursor) → EStateM.Result ReadFault Cursor α
  | .ok (value, next) => .ok value next
  | .error fault => .error fault cursor

namespace Reading

def peek (count : Nat) : Reading ByteArray := do
  let cursor ← get
  match cursor.peek count with
  | .ok bytes => return bytes
  | .error fault => throw fault

def take (count : Nat) : Reading ByteArray := do
  let bytes ← peek count
  modify fun cursor => { cursor with position := cursor.position + count }
  return bytes

def takeU16 : Reading UInt16 := do
  let bytes ← take 2
  return u16At bytes 0

def takeU32 : Reading UInt32 := do
  let bytes ← take 4
  return u32At bytes 0

/-- Bytes of another size than `size` would be a shortfall at the place where they began. -/
def takeRecord {α : Type} (size : Nat) (decode : ByteArray → α) : Reading α := do
  let start ← get
  let bytes ← take size
  if bytes.size = size then return decode bytes
  else throw (.shortfall start.position size bytes.size)

def peekU32 : Reading UInt32 := do
  let bytes ← peek 4
  return u32At bytes 0

section
variable (cursor : Cursor)

theorem run_peek (count : Nat) :
    (peek count).run cursor = settle cursor ((cursor.peek count).map fun bytes => (bytes, cursor)) := by
  rw [peek, EStateM.run_bind, EStateM.run_get]
  dsimp only
  cases cursor.peek count <;> rfl

theorem run_take (count : Nat) : (take count).run cursor = settle cursor (cursor.take count) := by
  rw [take, EStateM.run_bind, run_peek, Cursor.take]
  cases cursor.peek count <;> rfl

theorem run_takeU16 : takeU16.run cursor = settle cursor cursor.takeU16 := by
  rw [takeU16, EStateM.run_bind, run_take, Cursor.takeU16]
  cases cursor.take 2 <;> rfl

theorem run_takeU32 : takeU32.run cursor = settle cursor cursor.takeU32 := by
  rw [takeU32, EStateM.run_bind, run_take, Cursor.takeU32]
  cases cursor.take 4 <;> rfl

theorem run_takeRecord {α : Type} (size : Nat) (decode : ByteArray → α) :
    (takeRecord size decode).run cursor = settle cursor (cursor.takeRecord size decode) := by
  rw [takeRecord, EStateM.run_bind, EStateM.run_get]
  dsimp only
  rw [EStateM.run_bind, run_take, Cursor.takeRecord]
  cases htake : cursor.take size with
  | error fault => rfl
  | ok taken =>
    obtain ⟨hfit, hbytes, -⟩ := take_ok.mp htake
    have hsize : taken.1.size = size := by rw [hbytes, size_slice hfit]
    show EStateM.run (if taken.1.size = size then _ else _) taken.2 = _
    rw [if_pos hsize]
    rfl

theorem run_peekU32 :
    peekU32.run cursor = settle cursor (cursor.peekU32.map fun value => (value, cursor)) := by
  rw [peekU32, EStateM.run_bind, run_peek, Cursor.peekU32]
  cases cursor.peek 4 <;> rfl

end

theorem run_map {α β : Type} {reading : Reading α} {cursor : Cursor}
    {handedOut : Except ReadFault (α × Cursor)} (f : α → β)
    (h : reading.run cursor = settle cursor handedOut) :
    (f <$> reading).run cursor =
      settle cursor (handedOut.map fun (value, next) => (f value, next)) := by
  show EStateM.run (reading >>= fun value => pure (f value)) cursor = _
  rw [EStateM.run_bind, h]
  cases handedOut <;> rfl

end Reading

-- ---------------------------------------------------------------------------
-- One call
-- ---------------------------------------------------------------------------

/-- A call on a cursor; the records that are read, of whatever kinds, are in `ρ`. -/
inductive Call (ρ : Type)
  | take (count : Nat)
  | takeU16
  | takeU32
  | takeRecord (size : Nat) (decode : ByteArray → ρ)
  | peek (count : Nat)
  | peekU32

inductive Answer (ρ : Type)
  | bytes (bytes : ByteArray)
  | u16 (value : UInt16)
  | u32 (value : UInt32)
  | record (value : ρ)

namespace Call

variable {ρ : Type}

def need : Call ρ → Nat
  | take count | peek count => count
  | takeU16 => 2
  | takeU32 | peekU32 => 4
  | takeRecord size _ => size

def isPeek : Call ρ → Bool
  | peek _ | peekU32 => true
  | _ => false

/-- The read that takes what a peek shows; a read is its own. -/
def taking : Call ρ → Call ρ
  | peek count => take count
  | peekU32 => takeU32
  | call => call

def answer : Call ρ → ByteArray → Answer ρ
  | take _, bytes | peek _, bytes => .bytes bytes
  | takeU16, bytes => .u16 (u16At bytes 0)
  | takeU32, bytes | peekU32, bytes => .u32 (u32At bytes 0)
  | takeRecord _ decode, bytes => .record (decode bytes)

def behind (call : Call ρ) (cursor : Cursor) : Cursor :=
  if call.isPeek then cursor else { cursor with position := cursor.position + call.need }

def handOut : Call ρ → Cursor → Except ReadFault (Answer ρ × Cursor)
  | take count, cursor => (cursor.take count).map fun (bytes, next) => (.bytes bytes, next)
  | takeU16, cursor => cursor.takeU16.map fun (value, next) => (.u16 value, next)
  | takeU32, cursor => cursor.takeU32.map fun (value, next) => (.u32 value, next)
  | takeRecord size decode, cursor =>
    (cursor.takeRecord size decode).map fun (value, next) => (.record value, next)
  | peek count, cursor => (cursor.peek count).map fun bytes => (.bytes bytes, cursor)
  | peekU32, cursor => cursor.peekU32.map fun value => (.u32 value, cursor)

def inPlace : Call ρ → Reading (Answer ρ)
  | take count => .bytes <$> Reading.take count
  | takeU16 => .u16 <$> Reading.takeU16
  | takeU32 => .u32 <$> Reading.takeU32
  | takeRecord size decode => .record <$> Reading.takeRecord size decode
  | peek count => .bytes <$> Reading.peek count
  | peekU32 => .u32 <$> Reading.peekU32

/-- Moving the cursor in place comes to the same as handing out a new one. -/
theorem run_inPlace (call : Call ρ) (cursor : Cursor) :
    call.inPlace.run cursor = settle cursor (call.handOut cursor) := by
  cases call with
  | take count => exact Reading.run_map _ (Reading.run_take cursor count)
  | takeU16 => exact Reading.run_map _ (Reading.run_takeU16 cursor)
  | takeU32 => exact Reading.run_map _ (Reading.run_takeU32 cursor)
  | takeRecord size decode => exact Reading.run_map _ (Reading.run_takeRecord cursor size decode)
  | peek count =>
    refine (Reading.run_map _ (Reading.run_peek cursor count)).trans ?_
    rw [handOut]
    cases cursor.peek count <;> rfl
  | peekU32 =>
    refine (Reading.run_map _ (Reading.run_peekU32 cursor)).trans ?_
    rw [handOut]
    cases cursor.peekU32 <;> rfl

section
variable {cursor : Cursor}

theorem handOut_of_le {call : Call ρ} (h : cursor.position + call.need ≤ cursor.buffer.size) :
    call.handOut cursor =
      .ok (call.answer (slice cursor.buffer cursor.position call.need), call.behind cursor) := by
  cases call <;> dsimp only [need] at h
  case take count => rw [handOut, take_of_le h]; rfl
  case takeU16 => rw [handOut, Cursor.takeU16, take_of_le h]; rfl
  case takeU32 => rw [handOut, Cursor.takeU32, take_of_le h]; rfl
  case takeRecord size decode => rw [handOut, Cursor.takeRecord, take_of_le h]; rfl
  case peek count => rw [handOut, peek_ok.mpr ⟨h, rfl⟩]; rfl
  case peekU32 => rw [handOut, Cursor.peekU32, peek_ok.mpr ⟨h, rfl⟩]; rfl

theorem handOut_of_lt {call : Call ρ} (h : cursor.remaining < call.need) :
    call.handOut cursor = .error (.shortfall cursor.position call.need cursor.remaining) := by
  cases call <;> dsimp only [need] at h
  case take count => rw [handOut, take_of_lt h]; rfl
  case takeU16 => rw [handOut, Cursor.takeU16, take_of_lt h]; rfl
  case takeU32 => rw [handOut, Cursor.takeU32, take_of_lt h]; rfl
  case takeRecord size decode => rw [handOut, Cursor.takeRecord, take_of_lt h]; rfl
  case peek count => rw [handOut, peek_of_lt h]; rfl
  case peekU32 => rw [handOut, Cursor.peekU32, peek_of_lt h]; rfl

end

end Call

/-- What a call did: its result, and the cursor in front of it and behind it. -/
structure Step (ρ : Type) where
  call : Call ρ
  before : Cursor
  result : Except ReadFault (Answer ρ)
  after : Cursor

def Call.step {ρ : Type} (call : Call ρ) (cursor : Cursor) : Step ρ :=
  match call.inPlace.run cursor with
  | .ok answer after => ⟨call, cursor, .ok answer, after⟩
  | .error fault after => ⟨call, cursor, .error fault, after⟩

/-- What a read took off the buffer: the bytes that it needs, if it succeeded. -/
def Step.consumed {ρ : Type} (step : Step ρ) : ByteArray :=
  match step.result with
  | .ok _ =>
    if step.call.isPeek then ByteArray.empty
    else slice step.before.buffer step.before.position step.call.need
  | .error _ => ByteArray.empty

/-- The call moved its cursor over the bytes of its answer, or showed them where it is a peek; or
too few were left, and it says so and moved nothing. -/
structure Step.Faithful {ρ : Type} (step : Step ρ) : Prop where
  buffer_eq : step.after.buffer = step.before.buffer
  position_le : step.before.position ≤ step.after.position
  position_le_size : step.after.position ≤ step.after.buffer.size
  ok_iff : (∃ answer, step.result = .ok answer) ↔ step.call.need ≤ step.before.remaining
  of_ok : ∀ answer, step.result = .ok answer →
    answer = step.call.answer (slice step.before.buffer step.before.position step.call.need) ∧
      step.after = step.call.behind step.before
  of_error : ∀ fault, step.result = .error fault →
    fault = .shortfall step.before.position step.call.need step.before.remaining ∧
      step.after = step.before
  of_peek : step.call.isPeek = true →
    step.after = step.before ∧ step.result = (step.call.taking.step step.before).result
  handOut_eq : step.call.handOut step.before = step.result.map fun answer => (answer, step.after)

namespace Call

variable {ρ : Type} {call : Call ρ} {cursor : Cursor}

theorem before_step (call : Call ρ) (cursor : Cursor) : (call.step cursor).before = cursor := by
  rw [step]
  split <;> rfl

theorem step_of_le (h : cursor.position + call.need ≤ cursor.buffer.size) :
    call.step cursor = ⟨call, cursor,
      .ok (call.answer (slice cursor.buffer cursor.position call.need)), call.behind cursor⟩ := by
  rw [step, run_inPlace, handOut_of_le h]
  rfl

theorem step_of_lt (h : cursor.remaining < call.need) :
    call.step cursor = ⟨call, cursor,
      .error (.shortfall cursor.position call.need cursor.remaining), cursor⟩ := by
  rw [step, run_inPlace, handOut_of_lt h]
  rfl

theorem need_taking (call : Call ρ) : call.taking.need = call.need := by
  cases call <;> rfl

theorem answer_taking (call : Call ρ) : call.taking.answer = call.answer := by
  cases call <;> rfl

theorem buffer_behind (call : Call ρ) (cursor : Cursor) :
    (call.behind cursor).buffer = cursor.buffer := by
  rw [behind]
  split <;> rfl

theorem position_behind (call : Call ρ) (cursor : Cursor) :
    (call.behind cursor).position = cursor.position + if call.isPeek then 0 else call.need := by
  rw [behind]
  split <;> rfl

theorem step_faithful (call : Call ρ) (h : cursor.position ≤ cursor.buffer.size) :
    (call.step cursor).Faithful := by
  rcases short_or_fits h call.need with hshort | hfit
  · rw [step_of_lt hshort]
    exact {
      buffer_eq := rfl
      position_le := Nat.le_refl _
      position_le_size := h
      ok_iff := ⟨nofun, fun hle => absurd hle (Nat.not_le_of_lt hshort)⟩
      of_ok := fun _ hok => nomatch hok
      of_error := fun _ hfault => ⟨(Except.error.inj hfault).symm, rfl⟩
      of_peek := fun _ => by
        rw [step_of_lt (need_taking call ▸ hshort), need_taking]
        exact ⟨rfl, rfl⟩
      handOut_eq := handOut_of_lt hshort }
  · have hposition := position_behind call cursor
    rw [step_of_le hfit]
    exact {
      buffer_eq := buffer_behind call cursor
      position_le := by
        rw [hposition]
        exact Nat.le_add_right _ _
      position_le_size := by
        rw [hposition, buffer_behind]
        split <;> omega
      ok_iff := ⟨fun _ => Nat.le_sub_of_add_le' hfit, fun _ => ⟨_, rfl⟩⟩
      of_ok := fun _ hok => ⟨(Except.ok.inj hok).symm, rfl⟩
      of_error := fun _ hfault => nomatch hfault
      of_peek := fun hpeek => by
        rw [step_of_le (need_taking call ▸ hfit), need_taking, answer_taking]
        exact ⟨if_pos hpeek, rfl⟩
      handOut_eq := handOut_of_le hfit }

theorem consumed_step (call : Call ρ) (h : cursor.position ≤ cursor.buffer.size) :
    (call.step cursor).consumed = slice cursor.buffer cursor.position
      ((call.step cursor).after.position - cursor.position) := by
  have hnone : slice cursor.buffer cursor.position 0 = ByteArray.empty := by
    simp [slice]
  rcases short_or_fits h call.need with hshort | hfit
  · rw [step_of_lt hshort, Step.consumed, Nat.sub_self, hnone]
  · rw [step_of_le hfit, Step.consumed]
    simp only [position_behind, Nat.add_sub_cancel_left]
    split
    · exact hnone.symm
    · rfl

end Call

-- ---------------------------------------------------------------------------
-- Sequences of calls
-- ---------------------------------------------------------------------------

section
variable {ρ : Type}

def steps : List (Call ρ) → Cursor → List (Step ρ)
  | [], _ => []
  | call :: calls, cursor => call.step cursor :: steps calls (call.step cursor).after

def finish : List (Call ρ) → Cursor → Cursor
  | [], cursor => cursor
  | call :: calls, cursor => finish calls (call.step cursor).after

theorem finish_within (calls : List (Call ρ)) {cursor : Cursor}
    (h : cursor.position ≤ cursor.buffer.size) :
    (finish calls cursor).buffer = cursor.buffer ∧
      cursor.position ≤ (finish calls cursor).position ∧
      (finish calls cursor).position ≤ cursor.buffer.size := by
  induction calls generalizing cursor with
  | nil => exact ⟨rfl, Nat.le_refl _, h⟩
  | cons call calls ih =>
    have hstep := call.step_faithful h
    have hbuffer := hstep.buffer_eq
    have hmoved := hstep.position_le
    rw [Call.before_step] at hbuffer hmoved
    obtain ⟨hsame, hforward, hin⟩ := ih hstep.position_le_size
    rw [hbuffer] at hsame hin
    exact ⟨hsame, Nat.le_trans hmoved hforward, hin⟩

theorem faithful_of_mem_steps (calls : List (Call ρ)) {cursor : Cursor}
    (h : cursor.position ≤ cursor.buffer.size) : ∀ step ∈ steps calls cursor, step.Faithful := by
  induction calls generalizing cursor with
  | nil => exact fun _ hmem => nomatch hmem
  | cons call calls ih =>
    have hstep := call.step_faithful h
    exact List.forall_mem_cons.mpr ⟨hstep, ih hstep.position_le_size⟩

theorem concat_consumed (calls : List (Call ρ)) {cursor : Cursor}
    (h : cursor.position ≤ cursor.buffer.size) :
    concat ((steps calls cursor).map Step.consumed) =
      slice cursor.buffer cursor.position ((finish calls cursor).position - cursor.position) := by
  induction calls generalizing cursor with
  | nil =>
    show ByteArray.empty = slice cursor.buffer cursor.position (cursor.position - cursor.position)
    simp [slice]
  | cons call calls ih =>
    have hstep := call.step_faithful h
    have hbuffer := hstep.buffer_eq
    have hmoved := hstep.position_le
    rw [Call.before_step] at hbuffer hmoved
    obtain ⟨-, hforward, -⟩ := finish_within calls hstep.position_le_size
    rw [steps, List.map_cons, concat_cons, ih hstep.position_le_size, call.consumed_step h, hbuffer,
      slice_append_slice (Nat.add_sub_cancel' hmoved).symm, finish]
    congr 1
    omega

/-- On a cursor within its buffer every call of a sequence is faithful, no matter which of them
fail, and the bytes that the reads consumed are, one behind the other, the buffer from where the
cursor was to where it is. -/
theorem steps_faithful (calls : List (Call ρ)) {cursor : Cursor}
    (h : cursor.position ≤ cursor.buffer.size) :
    (∀ step ∈ steps calls cursor, step.Faithful) ∧
      (finish calls cursor).buffer = cursor.buffer ∧
      cursor.position ≤ (finish calls cursor).position ∧
      (finish calls cursor).position ≤ cursor.buffer.size ∧
      concat ((steps calls cursor).map Step.consumed) =
        slice cursor.buffer cursor.position
          ((finish calls cursor).position - cursor.position) := by
  obtain ⟨hbuffer, hforward, hin⟩ := finish_within calls h
  exact ⟨faithful_of_mem_steps calls h, hbuffer, hforward, hin, concat_consumed calls h⟩

end

def fiveBytes : Cursor := ofBytes ⟨#[1, 2, 3, 4, 5]⟩

def fiveBytesCalls : List (Call EndRecord) :=
  [.takeU16, .takeU32, .peek 2, .takeRecord EndRecord.bodySize EndRecord.decode, .peekU32, .take 2]

/-- Behind each failed call the next one starts where that one did. -/
theorem steps_faithful_five_bytes :
    fiveBytes.position ≤ fiveBytes.buffer.size ∧
      (∀ step ∈ steps fiveBytesCalls fiveBytes, step.Faithful) ∧
      (finish fiveBytesCalls fiveBytes).position = 4 ∧
      concat ((steps fiveBytesCalls fiveBytes).map Step.consumed) = ⟨#[1, 2, 3, 4]⟩ := by
  have h : fiveBytes.position ≤ fiveBytes.buffer.size := by decide
  have hposition : (finish fiveBytesCalls fiveBytes).position = 4 := by decide +kernel
  obtain ⟨hsteps, -, -, -, hconsumed⟩ := steps_faithful fiveBytesCalls h
  refine ⟨h, hsteps, hposition, ?_⟩
  rw [hconsumed, hposition]
  decide +kernel

end ClassicZip.Cursor
