import ClassicZip.Proofs.Record.RoundTrip

/-!
# What lies ahead of a cursor

A read succeeds exactly when its bytes are there, and hands out the slice at the position. With a
known part ahead the read gives that part and leaves the rest ahead.
-/

namespace ClassicZip

open Bytes

-- ---------------------------------------------------------------------------
-- Single steps
-- ---------------------------------------------------------------------------

theorem bind_eq_ok {ε α β : Type} {x : Except ε α} {f : α → Except ε β} {b : β} :
    x >>= f = .ok b ↔ ∃ a, x = .ok a ∧ f a = .ok b := by
  cases x <;> simp [bind, Except.bind]

theorem bind_eq_error {ε α β : Type} {x : Except ε α} {f : α → Except ε β} {fault : ε} :
    x >>= f = .error fault ↔ x = .error fault ∨ ∃ a, x = .ok a ∧ f a = .error fault := by
  cases x <;> simp [bind, Except.bind]

theorem pure_eq_ok {ε α : Type} {a b : α} : (pure a : Except ε α) = .ok b ↔ a = b := by
  simp [pure, Except.pure]

theorem pure_ne_error {ε α : Type} {a : α} {fault : ε} :
    (pure a : Except ε α) ≠ .error fault := nofun

theorem mapError_ok {ε ε' α : Type} (f : ε → ε') (a : α) :
    (Except.ok a).mapError f = .ok a := rfl

theorem mapError_eq_ok {ε ε' α : Type} {x : Except ε α} {f : ε → ε'} {a : α} :
    x.mapError f = .ok a ↔ x = .ok a := by
  cases x with
  | error fault => exact ⟨nofun, nofun⟩
  | ok value =>
    exact ⟨fun h => congrArg _ (Except.ok.inj h), fun h => congrArg _ (Except.ok.inj h)⟩

theorem mapError_eq_error {ε ε' α : Type} {x : Except ε α} {f : ε → ε'} {fault : ε'} :
    x.mapError f = .error fault ↔ ∃ cause, x = .error cause ∧ fault = f cause := by
  cases x with
  | error cause =>
    constructor
    · intro h
      exact ⟨cause, rfl, (Except.error.inj h).symm⟩
    · rintro ⟨found, hfound, rfl⟩
      rw [Except.error.inj hfound]
      rfl
  | ok value =>
    constructor
    · intro h
      cases h
    · rintro ⟨found, hfound, -⟩
      cases hfound

theorem toOption_eq_some {ε α : Type} {x : Except ε α} {a : α} :
    x.toOption = some a ↔ x = .ok a := by
  cases x <;> simp [Except.toOption]

theorem ok_bind {ε α β : Type} (a : α) (f : α → Except ε β) : Except.ok a >>= f = f a := rfl

section
variable {ε β : Type} {p : Prop} [Decidable p] {fault : ε} {next : Unit → Except ε β}

theorem guard_eq : (if p then (throw fault : Except ε Unit) >>= next else next ()) =
    if p then .error fault else next () := by
  by_cases h : p <;> simp [h, throw, throwThe, MonadExceptOf.throw, bind, Except.bind]

theorem guard_eq_ok {b : β} :
    (if p then (throw fault : Except ε Unit) >>= next else next ()) = .ok b ↔
      ¬p ∧ next () = .ok b := by
  rw [guard_eq]
  by_cases h : p <;> simp [h]

end

namespace Cursor

theorem peek_ok {cursor : Cursor} {count : Nat} {bytes : ByteArray} :
    cursor.peek count = .ok bytes ↔
      cursor.position + count ≤ cursor.buffer.size ∧
        bytes = slice cursor.buffer cursor.position count := by
  unfold peek remaining
  split
  · simp; omega
  · split
    · simp; omega
    · rw [Except.ok.injEq]
      constructor
      · rintro rfl; exact ⟨by omega, rfl⟩
      · rintro ⟨-, rfl⟩; rfl

theorem take_ok {cursor next : Cursor} {count : Nat} {bytes : ByteArray} :
    cursor.take count = .ok (bytes, next) ↔
      cursor.position + count ≤ cursor.buffer.size ∧
        bytes = slice cursor.buffer cursor.position count ∧
        next = { cursor with position := cursor.position + count } := by
  unfold take
  cases h : cursor.peek count with
  | error fault =>
    have hn : ¬ cursor.position + count ≤ cursor.buffer.size := fun hle => by
      rw [peek_ok.mpr ⟨hle, rfl⟩] at h
      cases h
    simp [hn]
  | ok bytes' =>
    obtain ⟨hle, rfl⟩ := peek_ok.mp h
    simp only [Except.ok.injEq, Prod.mk.injEq]
    constructor
    · rintro ⟨rfl, rfl⟩; exact ⟨hle, rfl, rfl⟩
    · rintro ⟨-, rfl, rfl⟩; exact ⟨rfl, rfl⟩

section
variable {cursor : Cursor} {count : Nat}

theorem take_of_le (h : cursor.position + count ≤ cursor.buffer.size) :
    cursor.take count = .ok (slice cursor.buffer cursor.position count,
      { cursor with position := cursor.position + count }) :=
  take_ok.mpr ⟨h, rfl, rfl⟩

theorem peek_of_lt (h : cursor.remaining < count) :
    cursor.peek count = .error (.shortfall cursor.position count cursor.remaining) :=
  if_pos h

theorem take_of_lt (h : cursor.remaining < count) :
    cursor.take count = .error (.shortfall cursor.position count cursor.remaining) := by
  rw [take, peek_of_lt h]

theorem short_or_fits (h : cursor.position ≤ cursor.buffer.size) (count : Nat) :
    cursor.remaining < count ∨ cursor.position + count ≤ cursor.buffer.size := by
  unfold remaining
  omega

end

theorem decode_taken_ok {α : Type} {taken : Except ReadFault (ByteArray × Cursor)}
    {decode : ByteArray → α} {value : α} {next : Cursor} :
    (match taken with
      | .ok (bytes, after) => Except.ok (decode bytes, after)
      | .error fault => .error fault) = .ok (value, next) ↔
      ∃ bytes, taken = .ok (bytes, next) ∧ value = decode bytes := by
  cases taken with
  | error fault => simp
  | ok found =>
    obtain ⟨bytes, after⟩ := found
    simp only [Except.ok.injEq, Prod.mk.injEq]
    constructor
    · rintro ⟨rfl, rfl⟩; exact ⟨bytes, ⟨rfl, rfl⟩, rfl⟩
    · rintro ⟨_, ⟨rfl, rfl⟩, rfl⟩; exact ⟨rfl, rfl⟩

theorem takeU16_ok {cursor next : Cursor} {value : UInt16} :
    cursor.takeU16 = .ok (value, next) ↔
      ∃ bytes, cursor.take 2 = .ok (bytes, next) ∧ value = u16At bytes 0 := decode_taken_ok

theorem takeU32_ok {cursor next : Cursor} {value : UInt32} :
    cursor.takeU32 = .ok (value, next) ↔
      ∃ bytes, cursor.take 4 = .ok (bytes, next) ∧ value = u32At bytes 0 := decode_taken_ok

theorem takeDirectoryHeader_ok {cursor next : Cursor} {header : DirectoryHeader} :
    cursor.takeDirectoryHeader = .ok (header, next) ↔
      ∃ bytes, cursor.take DirectoryHeader.bodySize = .ok (bytes, next) ∧
        header = DirectoryHeader.decode bytes := decode_taken_ok

theorem takeLocalHeader_ok {cursor next : Cursor} {header : LocalHeader} :
    cursor.takeLocalHeader = .ok (header, next) ↔
      ∃ bytes, cursor.take LocalHeader.bodySize = .ok (bytes, next) ∧
        header = LocalHeader.decode bytes := decode_taken_ok

theorem takeEndRecord_ok {cursor next : Cursor} {record : EndRecord} :
    cursor.takeEndRecord = .ok (record, next) ↔
      ∃ bytes, cursor.take EndRecord.bodySize = .ok (bytes, next) ∧
        record = EndRecord.decode bytes := decode_taken_ok

-- ---------------------------------------------------------------------------
-- Known parts ahead
-- ---------------------------------------------------------------------------

/-- The cursor stands in front of `rest`, which ends the buffer. -/
def Ahead (cursor : Cursor) (rest : ByteArray) : Prop :=
  ∃ before, cursor.buffer = before ++ rest ∧ cursor.position = before.size

theorem ahead_ofBytes (buffer : ByteArray) : (ofBytes buffer).Ahead buffer :=
  ⟨ByteArray.empty, by simp [ofBytes], rfl⟩

section
variable {cursor : Cursor} {rest : ByteArray}

theorem Ahead.split {part : ByteArray} (h : cursor.Ahead rest)
    (hpart : slice cursor.buffer cursor.position part.size = part) :
    ∃ behind, rest = part ++ behind ∧
      Ahead ⟨cursor.buffer, cursor.position + part.size⟩ behind := by
  obtain ⟨before, hbuffer, hposition⟩ := h
  rw [hbuffer, hposition, slice_append_right (Nat.le_refl _), Nat.sub_self] at hpart
  have hsplit : rest = part ++ slice rest part.size (rest.size - part.size) := by
    have hfit : part.size ≤ rest.size := by
      have hsize := congrArg ByteArray.size hpart
      rw [slice, ByteArray.size_extract] at hsize
      omega
    have hwhole : slice rest 0 (part.size + (rest.size - part.size)) = rest := by
      rw [Nat.add_sub_cancel' hfit, slice_eq_self]
    rw [← slice_append_slice (Nat.zero_add _).symm, hpart] at hwhole
    exact hwhole.symm
  refine ⟨_, hsplit, before ++ part, ?_, ?_⟩
  · rw [hbuffer, ByteArray.append_assoc, ← hsplit]
  · rw [hposition, ByteArray.size_append]

theorem Ahead.size_eq (h : cursor.Ahead rest) :
    cursor.position + rest.size = cursor.buffer.size := by
  obtain ⟨before, hbuffer, hposition⟩ := h
  rw [hbuffer, hposition, ByteArray.size_append]

theorem Ahead.position_of_split {next : Cursor} {part : ByteArray}
    (h : cursor.Ahead (part ++ rest)) (hn : next.Ahead rest)
    (hbuffer : next.buffer = cursor.buffer) :
    next.position = cursor.position + part.size := by
  have hsize := h.size_eq
  have hnext := hn.size_eq
  rw [hbuffer] at hnext
  rw [ByteArray.size_append] at hsize
  omega

theorem Ahead.u16At_eq (h : cursor.Ahead rest) (index : Nat) :
    u16At cursor.buffer (cursor.position + index) = u16At rest index := by
  obtain ⟨before, hbuffer, hposition⟩ := h
  rw [hbuffer, hposition, u16At_append_right (Nat.le_add_right _ _), Nat.add_sub_cancel_left]

theorem Ahead.u32At_eq (h : cursor.Ahead rest) :
    u32At cursor.buffer cursor.position = u32At rest 0 := by
  obtain ⟨before, hbuffer, hposition⟩ := h
  rw [hbuffer, hposition, u32At_append_right (Nat.le_refl _), Nat.sub_self]

theorem take_ahead {part : ByteArray} (h : cursor.Ahead (part ++ rest)) :
    ∃ next, cursor.take part.size = .ok (part, next) ∧ next.Ahead rest := by
  obtain ⟨before, hb, hp⟩ := h
  refine ⟨_, take_ok.mpr ⟨?_, ?_, rfl⟩, before ++ part, ?_, ?_⟩
  · simp [hb, hp]
  · rw [hb, hp, slice_append_append]
  · simp [hb, ByteArray.append_assoc]
  · simp [hp]

theorem takeU16_ahead {value : UInt16} (h : cursor.Ahead (le16 value ++ rest)) :
    ∃ next, cursor.takeU16 = .ok (value, next) ∧ next.Ahead rest := by
  obtain ⟨next, ht, hn⟩ := take_ahead h
  exact ⟨next, takeU16_ok.mpr ⟨_, ht, (u16At_le16 value).symm⟩, hn⟩

theorem takeU32_ahead {value : UInt32} (h : cursor.Ahead (le32 value ++ rest)) :
    ∃ next, cursor.takeU32 = .ok (value, next) ∧ next.Ahead rest := by
  obtain ⟨next, ht, hn⟩ := take_ahead h
  exact ⟨next, takeU32_ok.mpr ⟨_, ht, (u32At_le32 value).symm⟩, hn⟩

theorem takeDirectoryHeader_ahead {header : DirectoryHeader}
    (h : cursor.Ahead (header.encode ++ rest)) :
    ∃ next, cursor.takeDirectoryHeader = .ok (header, next) ∧ next.Ahead rest := by
  obtain ⟨next, ht, hn⟩ := take_ahead h
  rw [DirectoryHeader.size_encode] at ht
  exact ⟨next, takeDirectoryHeader_ok.mpr ⟨_, ht, header.decode_encode.symm⟩, hn⟩

end

end Cursor

end ClassicZip
