import ClassicZip.Proofs.Extra.Blocks

/-!
# Extra fields are sequences of blocks

The loop that takes blocks off an extra field ends at the end of the bytes, or in front of a rest
that starts no block. `parse?_exact`: a field is parsed just when it is a sequence of blocks, and
then as these blocks; no field is two such sequences. What is not parsed ends in a rest that is cut
off within a block.
-/

namespace ClassicZip.ExtraBlock

open Bytes

/-- The bytes are these blocks, one behind the other. None is longer than its length field can
say. -/
structure Spelled (bytes : ByteArray) (blocks : List ExtraBlock) : Prop where
  fits : ∀ block ∈ blocks, block.data.size ≤ maxLength
  bytes_eq : bytes = encodeAll blocks

/-- The bytes end within their first block, in its id, its length or its data. -/
def Cut (bytes : ByteArray) : Prop :=
  bytes.size < 4 ∨ bytes.size < 4 + (u16At bytes 2).toNat

inductive Taken : Cursor → List ExtraBlock → Cursor → Prop
  | stop (cursor : Cursor) : Taken cursor [] cursor
  | round {cursor next last : Cursor} {block : ExtraBlock} {blocks : List ExtraBlock} :
      take? cursor = some (block, next) → Taken next blocks last →
      Taken cursor (block :: blocks) last

theorem spelled_nil : Spelled ByteArray.empty [] := ⟨by simp, rfl⟩

theorem spelled_cons {block : ExtraBlock} {blocks : List ExtraBlock} {bytes : ByteArray}
    (hfit : block.data.size ≤ maxLength) (h : Spelled bytes blocks) :
    Spelled (block.encode ++ bytes) (block :: blocks) :=
  ⟨List.forall_mem_cons.mpr ⟨hfit, h.fits⟩, by rw [encodeAll_cons, h.bytes_eq]⟩

theorem Spelled.four_mul_length_le {bytes : ByteArray} {blocks : List ExtraBlock}
    (h : Spelled bytes blocks) : 4 * blocks.length ≤ bytes.size := by
  obtain ⟨-, rfl⟩ := h
  induction blocks with
  | nil => simp
  | cons block rest ih =>
    rw [encodeAll_cons, ByteArray.size_append, size_encode, List.length_cons]
    omega

-- ---------------------------------------------------------------------------
-- One round
-- ---------------------------------------------------------------------------

section
variable {cursor next : Cursor} {block : ExtraBlock} {bytes : ByteArray}

theorem encode_of_not_cut (h : ¬Cut bytes) :
    ∃ (block : ExtraBlock) (rest : ByteArray), block.data.size ≤ maxLength ∧
      bytes = block.encode ++ rest := by
  obtain ⟨length, hlength⟩ : ∃ length, length = (u16At bytes 2).toNat := ⟨_, rfl⟩
  rw [Cut, ← hlength, not_or] at h
  obtain ⟨hhead, hdata⟩ := h
  have hsize : (slice bytes 4 length).size = length := size_slice (Nat.le_of_not_lt hdata)
  refine ⟨⟨u16At bytes 0, slice bytes 4 length⟩,
    slice bytes (4 + length) (bytes.size - (4 + length)), ?_, ?_⟩
  · rw [hsize, hlength]
    exact toNat_le_maxLength _
  · have hword : le16 (UInt16.ofNat length) = slice bytes 2 2 := by
      rw [hlength, UInt16.ofNat_toNat, le16_u16At (Nat.le_of_not_lt hhead)]
    rw [encode, hsize, hword, le16_u16At (by omega), slice_append_slice rfl, slice_append_slice rfl,
      slice_append_slice (by omega), Nat.add_sub_cancel' (Nat.le_of_not_lt hdata), slice_eq_self]

theorem take?_of_cut (ha : cursor.Ahead bytes) (hcut : Cut bytes) : take? cursor = none := by
  have hsize := ha.size_eq
  -- If all three parts were there, the bytes ahead would hold the header and the data.
  unfold take?
  cases hid : cursor.takeU16 with
  | error fault => rfl
  | ok found =>
    obtain ⟨_, hid, -⟩ := Cursor.takeU16_ok.mp hid
    obtain ⟨-, -, hafter⟩ := Cursor.take_ok.mp hid
    dsimp only
    cases hlength : found.2.takeU16 with
    | error fault => rfl
    | ok declared =>
      obtain ⟨_, hlength, hword⟩ := Cursor.takeU16_ok.mp hlength
      obtain ⟨hhead, rfl, hbehind⟩ := Cursor.take_ok.mp hlength
      dsimp only
      cases hdata : declared.2.take declared.1.toNat with
      | error fault => rfl
      | ok data =>
        obtain ⟨hdata, -⟩ := Cursor.take_ok.mp hdata
        rw [hafter, u16At_slice (Nat.le_refl 2), Nat.add_zero, ha.u16At_eq] at hword
        rw [hafter] at hhead
        rw [hbehind, hafter, hword] at hdata
        dsimp only at hhead hdata
        rcases hcut with hcut | hcut <;> omega

theorem take?_eq_none_iff (ha : cursor.Ahead bytes) : take? cursor = none ↔ Cut bytes := by
  refine ⟨fun hnone => Classical.byContradiction fun hwhole => ?_, take?_of_cut ha⟩
  obtain ⟨block, rest, hfit, rfl⟩ := encode_of_not_cut hwhole
  obtain ⟨next, hsome, -⟩ := take?_ahead hfit ha
  rw [hnone] at hsome
  cases hsome

theorem take?_eq_some (ha : cursor.Ahead bytes) (h : take? cursor = some (block, next)) :
    block.data.size ≤ maxLength ∧ ∃ rest, bytes = block.encode ++ rest ∧ next.Ahead rest := by
  have hwhole : ¬Cut bytes := fun hcut => by
    rw [take?_of_cut ha hcut] at h
    cases h
  obtain ⟨found, rest, hfit, rfl⟩ := encode_of_not_cut hwhole
  obtain ⟨after, hsome, hafter⟩ := take?_ahead hfit ha
  obtain ⟨rfl, rfl⟩ := Prod.mk.inj (Option.some.inj (hsome.symm.trans h))
  exact ⟨hfit, rest, rfl, hafter⟩

end

-- ---------------------------------------------------------------------------
-- All rounds
-- ---------------------------------------------------------------------------

section
variable {cursor last : Cursor} {blocks : List ExtraBlock} {bytes : ByteArray}

theorem Taken.spelled (h : Taken cursor blocks last) (ha : cursor.Ahead bytes) :
    ∃ front rest, Spelled front blocks ∧ bytes = front ++ rest ∧ last.Ahead rest := by
  induction h generalizing bytes with
  | stop cursor => exact ⟨ByteArray.empty, bytes, spelled_nil, by simp, ha⟩
  | round htake _ ih =>
    obtain ⟨hfit, behind, rfl, hnext⟩ := take?_eq_some ha htake
    obtain ⟨front, rest, hfront, rfl, hlast⟩ := ih hnext
    exact ⟨_, rest, spelled_cons hfit hfront, by rw [ByteArray.append_assoc], hlast⟩

theorem takeAll?_ends (cursor : Cursor) : ∃ blocks last, Taken cursor blocks last ∧
    (last.isAtEnd = true ∧ takeAll? cursor = some blocks ∨
      ¬last.isAtEnd = true ∧ take? last = none ∧ takeAll? cursor = none) := by
  induction cursor using takeAll?.induct with
  | case1 cursor hend => exact ⟨[], cursor, .stop cursor, .inl ⟨hend, takeAll?_of_end hend⟩⟩
  | case2 cursor hgoes hnone =>
    exact ⟨[], cursor, .stop cursor, .inr ⟨hgoes, hnone, takeAll?_of_none hgoes hnone⟩⟩
  | case3 cursor hgoes block next htake ih =>
    obtain ⟨blocks, last, htaken, hends⟩ := ih
    refine ⟨block :: blocks, last, .round htake htaken, ?_⟩
    simp only [takeAll?_of_take? htake, Option.map_eq_some_iff, Option.map_eq_none_iff]
    rcases hends with ⟨hend, hall⟩ | hstuck
    · exact .inl ⟨hend, blocks, hall, rfl⟩
    · exact .inr hstuck

theorem Taken.takeAll?_eq (h : Taken cursor blocks last) :
    takeAll? cursor = (takeAll? last).map (blocks ++ ·) := by
  induction h with
  | stop cursor => simp
  | round htake _ ih => simp [takeAll?_of_take? htake, ih, Function.comp_def]

theorem Spelled.taken {front rest : ByteArray} (h : Spelled front blocks)
    (ha : cursor.Ahead (front ++ rest)) : ∃ last, Taken cursor blocks last ∧ last.Ahead rest := by
  obtain ⟨hfit, rfl⟩ := h
  induction blocks generalizing cursor with
  | nil => exact ⟨cursor, .stop cursor, by simpa using ha⟩
  | cons block blocks ih =>
    rw [List.forall_mem_cons] at hfit
    rw [encodeAll_cons, ByteArray.append_assoc] at ha
    obtain ⟨next, htake, hnext⟩ := take?_ahead hfit.1 ha
    obtain ⟨last, htaken, hlast⟩ := ih hfit.2 hnext
    exact ⟨last, .round htake htaken, hlast⟩

theorem isAtEnd_iff (ha : cursor.Ahead bytes) :
    cursor.isAtEnd = true ↔ bytes = ByteArray.empty := by
  have hsize := ha.size_eq
  rw [Cursor.isAtEnd, decide_eq_true_eq, ← ByteArray.size_eq_zero_iff]
  omega

end

section
variable {extra : ByteArray} {blocks : List ExtraBlock}

theorem parse?_eq_some_iff : parse? extra = some blocks ↔ Spelled extra blocks := by
  constructor
  · intro h
    obtain ⟨found, last, htaken, hends⟩ := takeAll?_ends (Cursor.ofBytes extra)
    obtain ⟨front, rest, hfront, hextra, hlast⟩ := htaken.spelled (Cursor.ahead_ofBytes extra)
    rcases hends with ⟨hend, hall⟩ | ⟨-, -, hall⟩
    · obtain rfl : found = blocks := Option.some.inj (hall.symm.trans h)
      obtain rfl := (isAtEnd_iff hlast).mp hend
      rw [hextra, ByteArray.append_empty]
      exact hfront
    · cases hall.symm.trans h
  · rintro ⟨hfit, rfl⟩
    exact parse?_encodeAll hfit

theorem parse?_eq_none_iff : parse? extra = none ↔
    ∃ blocks front rest, Spelled front blocks ∧ extra = front ++ rest ∧ rest ≠ ByteArray.empty ∧
      Cut rest := by
  constructor
  · intro h
    obtain ⟨blocks, last, htaken, hends⟩ := takeAll?_ends (Cursor.ofBytes extra)
    obtain ⟨front, rest, hfront, hextra, hlast⟩ := htaken.spelled (Cursor.ahead_ofBytes extra)
    rcases hends with ⟨-, hall⟩ | ⟨hgoes, hnone, -⟩
    · cases hall.symm.trans h
    · exact ⟨blocks, front, rest, hfront, hextra, fun hempty =>
        hgoes ((isAtEnd_iff hlast).mpr hempty), (take?_eq_none_iff hlast).mp hnone⟩
  · rintro ⟨blocks, front, rest, hfront, rfl, hrest, hcut⟩
    obtain ⟨last, htaken, hlast⟩ := hfront.taken (Cursor.ahead_ofBytes (front ++ rest))
    have hgoes : ¬last.isAtEnd = true := fun hend => hrest ((isAtEnd_iff hlast).mp hend)
    rw [parse?, htaken.takeAll?_eq, takeAll?_of_none hgoes (take?_of_cut hlast hcut)]
    rfl

end

/-- A field is parsed as some blocks just when it is these blocks, one behind the other, and it is
no other sequence of blocks. One that is no sequence is not parsed: it is some blocks and then a
rest that ends within its first block. A run of the loop has at most one round for each four bytes,
and passes over none. -/
theorem parse?_exact (extra : ByteArray) :
    (∀ blocks, parse? extra = some blocks ↔ Spelled extra blocks) ∧
    (∀ blocks others, Spelled extra blocks → Spelled extra others → blocks = others) ∧
    (parse? extra = none ↔ ∀ blocks, ¬Spelled extra blocks) ∧
    (parse? extra = none ↔ ∃ blocks front rest, Spelled front blocks ∧ extra = front ++ rest ∧
      rest ≠ ByteArray.empty ∧ Cut rest) ∧
    (∀ blocks last, Taken (Cursor.ofBytes extra) blocks last →
      4 * blocks.length ≤ extra.size ∧
        ∃ front rest, Spelled front blocks ∧ extra = front ++ rest ∧ last.Ahead rest) := by
  refine ⟨fun blocks => parse?_eq_some_iff, fun blocks others hblocks hothers => ?_, ?_,
    parse?_eq_none_iff, fun blocks last htaken => ?_⟩
  · have hparse := parse?_eq_some_iff.mpr hblocks
    exact Option.some.inj (hparse.symm.trans (parse?_eq_some_iff.mpr hothers))
  · simp only [← parse?_eq_some_iff, Option.eq_none_iff_forall_ne_some, ne_eq]
  · obtain ⟨front, rest, hfront, rfl, hlast⟩ := htaken.spelled (Cursor.ahead_ofBytes extra)
    refine ⟨?_, front, rest, hfront, rfl, hlast⟩
    rw [ByteArray.size_append]
    exact Nat.le_trans hfront.four_mul_length_le (Nat.le_add_right _ _)

end ClassicZip.ExtraBlock
