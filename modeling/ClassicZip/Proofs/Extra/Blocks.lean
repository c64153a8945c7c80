import ClassicZip.Extra
import ClassicZip.Proofs.Cursor.Ahead

/-!
# Extra fields read back

Blocks that stand one behind the other are parsed as just these blocks. So an alignment block is
found behind any others, and without it the others are left as they were.
-/

namespace ClassicZip

open Bytes

namespace ExtraBlock

theorem encodeAll_eq (blocks : List ExtraBlock) :
    encodeAll blocks = concat (blocks.map encode) := by
  rw [encodeAll, foldl_append_eq_concat, ByteArray.empty_append]

@[simp] theorem encodeAll_nil : encodeAll [] = ByteArray.empty := rfl

theorem encodeAll_cons (block : ExtraBlock) (blocks : List ExtraBlock) :
    encodeAll (block :: blocks) = block.encode ++ encodeAll blocks := by
  simp only [encodeAll_eq, List.map_cons, concat_cons]

theorem encodeAll_append (front back : List ExtraBlock) :
    encodeAll (front ++ back) = encodeAll front ++ encodeAll back := by
  simp only [encodeAll_eq, List.map_append, concat_append]

theorem encodeAll_singleton (block : ExtraBlock) : encodeAll [block] = block.encode :=
  ByteArray.empty_append

theorem size_encode (block : ExtraBlock) : block.encode.size = 4 + block.data.size := by
  simp only [encode, ByteArray.size_append, size_le16, Nat.reduceAdd]

theorem take?_ahead {block : ExtraBlock} {cursor : Cursor} {rest : ByteArray}
    (hfit : block.data.size ≤ maxLength) (h : cursor.Ahead (block.encode ++ rest)) :
    ∃ next, take? cursor = some (block, next) ∧ next.Ahead rest := by
  simp only [encode, ByteArray.append_assoc] at h
  obtain ⟨afterId, hid, h⟩ := Cursor.takeU16_ahead h
  obtain ⟨afterLength, hlength, h⟩ := Cursor.takeU16_ahead h
  obtain ⟨next, hdata, h⟩ := Cursor.take_ahead h
  rw [← toNat_ofNat_of_le_maxLength hfit] at hdata
  refine ⟨next, ?_, h⟩
  simp only [take?, hid, hlength, hdata]

-- ---------------------------------------------------------------------------
-- The rounds of the loop
-- ---------------------------------------------------------------------------

section
variable {cursor next : Cursor} {block : ExtraBlock}

theorem takeAll?_of_end (hend : cursor.isAtEnd = true) : takeAll? cursor = some [] := by
  rw [takeAll?, if_pos hend]

theorem takeAll?_of_none (hgoes : ¬cursor.isAtEnd = true) (hnone : take? cursor = none) :
    takeAll? cursor = none := by
  rw [takeAll?, if_neg hgoes]
  split
  · rfl
  · rename_i hsome
    rw [hnone] at hsome
    cases hsome

theorem takeAll?_of_take? (htake : take? cursor = some (block, next)) :
    takeAll? cursor = (takeAll? next).map (block :: ·) := by
  have hgoes : ¬cursor.isAtEnd = true := by
    have hless := remaining_of_take? htake
    rw [Cursor.isAtEnd, decide_eq_true_eq]
    simp only [Cursor.remaining] at hless
    omega
  rw [takeAll?, if_neg hgoes]
  split
  · rename_i hnone
    rw [htake] at hnone
    cases hnone
  · rename_i hsome
    obtain ⟨rfl, rfl⟩ := Prod.mk.inj (Option.some.inj (htake.symm.trans hsome))
    rfl

end

theorem takeAll?_ahead {blocks : List ExtraBlock} {cursor : Cursor}
    (hfit : ∀ block ∈ blocks, block.data.size ≤ maxLength)
    (h : cursor.Ahead (encodeAll blocks)) : takeAll? cursor = some blocks := by
  induction blocks generalizing cursor with
  | nil =>
    obtain ⟨before, hbuffer, hposition⟩ := h
    have hend : cursor.isAtEnd = true := by
      simp [Cursor.isAtEnd, hbuffer, hposition]
    exact takeAll?_of_end hend
  | cons block rest ih =>
    rw [List.forall_mem_cons] at hfit
    rw [encodeAll_cons] at h
    obtain ⟨next, htake, hnext⟩ := take?_ahead hfit.1 h
    rw [takeAll?_of_take? htake, ih hfit.2 hnext]
    rfl

theorem parse?_encodeAll {blocks : List ExtraBlock}
    (hfit : ∀ block ∈ blocks, block.data.size ≤ maxLength) :
    parse? (encodeAll blocks) = some blocks :=
  takeAll?_ahead hfit (Cursor.ahead_ofBytes _)

end ExtraBlock

namespace Alignment

def asBlock (alignment : UInt16) (padding : Nat) : ExtraBlock :=
  ⟨blockId, le16 alignment ++ zeros padding⟩

theorem block_eq (alignment : UInt16) (padding : Nat) :
    block alignment padding = ExtraBlock.encodeAll [asBlock alignment padding] := by
  rw [ExtraBlock.encodeAll_singleton]
  simp only [block, ExtraBlock.encode, asBlock, ByteArray.size_append, size_le16, size_zeros,
    ByteArray.append_assoc]

section
variable {blocks : List ExtraBlock} {alignment : UInt16} {padding : Nat}

theorem parse?_append_block (hfit : ∀ block ∈ blocks, block.data.size ≤ maxLength)
    (hpadding : 2 + padding ≤ maxLength) :
    ExtraBlock.parse? (ExtraBlock.encodeAll blocks ++ block alignment padding) =
      some (blocks ++ [asBlock alignment padding]) := by
  rw [block_eq, ← ExtraBlock.encodeAll_append]
  refine ExtraBlock.parse?_encodeAll fun block hblock => ?_
  rcases List.mem_append.mp hblock with hblock | hblock
  · exact hfit block hblock
  · obtain rfl := List.mem_singleton.mp hblock
    simpa [asBlock] using hpadding

theorem find?_encodeAll (hfit : ∀ block ∈ blocks, block.data.size ≤ maxLength)
    (hother : ∀ block ∈ blocks, block.id ≠ blockId) :
    find? (ExtraBlock.encodeAll blocks) = none := by
  have hnone : blocks.find? (fun block => block.id == blockId && 2 ≤ block.data.size) = none := by
    rw [List.find?_eq_none]
    intro block hblock
    simp [hother block hblock]
  simp only [find?, ExtraBlock.parse?_encodeAll hfit, hnone]

theorem find?_append_block (hfit : ∀ block ∈ blocks, block.data.size ≤ maxLength)
    (hother : ∀ block ∈ blocks, block.id ≠ blockId) (hpadding : 2 + padding ≤ maxLength)
    (hpower : isPowerOfTwo alignment = true) :
    find? (ExtraBlock.encodeAll blocks ++ block alignment padding) = some alignment := by
  have hfound : (blocks ++ [asBlock alignment padding]).find?
      (fun block => block.id == blockId && 2 ≤ block.data.size) =
        some (asBlock alignment padding) := by
    rw [List.find?_append, List.find?_eq_none.mpr fun block hblock => by simp [hother block hblock]]
    simp [asBlock]
  simp only [find?, parse?_append_block hfit hpadding, hfound]
  simp only [asBlock, u16At_le16_append, hpower, if_true]

theorem strip_encodeAll (hfit : ∀ block ∈ blocks, block.data.size ≤ maxLength)
    (hother : ∀ block ∈ blocks, block.id ≠ blockId) :
    strip (ExtraBlock.encodeAll blocks) = ExtraBlock.encodeAll blocks := by
  have hall : blocks.filter (fun block => block.id != blockId) = blocks := by
    rw [List.filter_eq_self]
    intro block hblock
    simp [hother block hblock]
  simp only [strip, ExtraBlock.parse?_encodeAll hfit, hall]

theorem strip_append_block (hfit : ∀ block ∈ blocks, block.data.size ≤ maxLength)
    (hother : ∀ block ∈ blocks, block.id ≠ blockId) (hpadding : 2 + padding ≤ maxLength) :
    strip (ExtraBlock.encodeAll blocks ++ block alignment padding) =
      ExtraBlock.encodeAll blocks := by
  have hall : (blocks ++ [asBlock alignment padding]).filter (fun block => block.id != blockId) =
      blocks := by
    rw [List.filter_append, List.filter_eq_self.mpr fun block hblock => by simp [hother block hblock]]
    simp [asBlock]
  simp only [strip, parse?_append_block hfit hpadding, hall]

end

end Alignment

end ClassicZip
