import ClassicZip.Proofs.Extra.Grammar

/-!
# Alignment among other blocks

Whatever an extra field was, without its alignment blocks it is a sequence of just the other ones.
So an alignment block put behind them is the one that is found, and it comes off again without a
trace: `strip_block_exact`.
-/

namespace ClassicZip

open Bytes

namespace Alignment

/-- The blocks that are not about alignment. A field that is no sequence of blocks has none. -/
def otherBlocks (extra : ByteArray) : List ExtraBlock :=
  ((ExtraBlock.parse? extra).getD []).filter fun block => block.id != blockId

theorem strip_eq_encodeAll (extra : ByteArray) :
    strip extra = ExtraBlock.encodeAll (otherBlocks extra) := by
  unfold strip otherBlocks
  cases ExtraBlock.parse? extra <;> rfl

section
variable {extra : ByteArray}

theorem id_ne_of_mem_otherBlocks : ∀ block ∈ otherBlocks extra, block.id ≠ blockId := by
  intro block hblock
  simpa using (List.mem_filter.mp hblock).2

theorem fits_of_mem_otherBlocks : ∀ block ∈ otherBlocks extra, block.data.size ≤ maxLength := by
  intro block hblock
  have hparsed := (List.mem_filter.mp hblock).1
  cases hparse : ExtraBlock.parse? extra with
  | none => simp [hparse] at hparsed
  | some blocks =>
    rw [hparse, Option.getD_some] at hparsed
    exact (ExtraBlock.parse?_eq_some_iff.mp hparse).fits block hparsed

theorem parse?_strip : ExtraBlock.parse? (strip extra) = some (otherBlocks extra) := by
  rw [strip_eq_encodeAll, ExtraBlock.parse?_encodeAll fits_of_mem_otherBlocks]

theorem find?_strip : find? (strip extra) = none := by
  rw [strip_eq_encodeAll, find?_encodeAll fits_of_mem_otherBlocks id_ne_of_mem_otherBlocks]

theorem strip_strip : strip (strip extra) = strip extra := by
  rw [strip_eq_encodeAll extra, strip_encodeAll fits_of_mem_otherBlocks id_ne_of_mem_otherBlocks]

variable {alignment : UInt16} {padding : Nat}

theorem find?_strip_append_block (hpadding : 2 + padding ≤ maxLength)
    (hpower : isPowerOfTwo alignment = true) :
    find? (strip extra ++ block alignment padding) = some alignment := by
  rw [strip_eq_encodeAll,
    find?_append_block fits_of_mem_otherBlocks id_ne_of_mem_otherBlocks hpadding hpower]

theorem strip_strip_append_block (hpadding : 2 + padding ≤ maxLength) :
    strip (strip extra ++ block alignment padding) = strip extra := by
  rw [strip_eq_encodeAll extra,
    strip_append_block fits_of_mem_otherBlocks id_ne_of_mem_otherBlocks hpadding]

end

/-- A power of two and the number below it have no bit in common, and no other number but zero is
like that. -/
theorem isPowerOfTwo_iff {alignment : UInt16} :
    isPowerOfTwo alignment = true ↔ alignment.toNat.isPowerOfTwo := by
  rw [isPowerOfTwo, Bool.and_eq_true, bne_iff_ne, beq_iff_eq]
  by_cases hzero : alignment = 0
  · subst hzero
    refine ⟨fun h => absurd rfl h.1, fun ⟨exponent, hexponent⟩ => ?_⟩
    exact absurd hexponent (Nat.ne_of_lt (Nat.two_pow_pos exponent))
  · have hpos : alignment.toNat ≠ 0 := fun h => hzero (UInt16.toNat_inj.mp h)
    have hbelow : (alignment - 1).toNat = alignment.toNat - 1 :=
      UInt16.toNat_sub_of_le _ _ (UInt16.le_iff_toNat_le.mpr (Nat.pos_of_ne_zero hpos))
    rw [← Nat.and_sub_one_eq_zero_iff_isPowerOfTwo hpos, ← hbelow, ← UInt16.toNat_and,
      ← UInt16.toNat_inj]
    exact and_iff_right hzero

/-- Of any extra field there stay, in their order, the blocks that are not about alignment, and
nothing of one that is no sequence of blocks. These are well formed, record no alignment, and there
is nothing more to take off. Behind them a block with any power of two is found, however it is
padded, and to take it off gives them back. -/
theorem strip_block_exact (extra : ByteArray) {alignment : UInt16} {padding : Nat}
    (hpower : alignment.toNat.isPowerOfTwo) (hpadding : 2 + padding ≤ maxLength) :
    ExtraBlock.parse? (strip extra) =
      some (((ExtraBlock.parse? extra).getD []).filter fun block => block.id != 0xD935) ∧
    (ExtraBlock.parse? extra = none → strip extra = ByteArray.empty) ∧
    find? (strip extra) = none ∧
    strip (strip extra) = strip extra ∧
    find? (strip extra ++ block alignment padding) = some alignment ∧
    strip (strip extra ++ block alignment padding) = strip extra := by
  refine ⟨parse?_strip, fun hnone => ?_, find?_strip, strip_strip,
    find?_strip_append_block hpadding (isPowerOfTwo_iff.mpr hpower),
    strip_strip_append_block hpadding⟩
  rw [strip, hnone]

/-- An alignment block too short to hold an alignment, another block, and one that holds three. -/
def crowded : List ExtraBlock :=
  [⟨blockId, ⟨#[4]⟩⟩, ⟨0x5455, ⟨#[7]⟩⟩, ⟨blockId, ⟨#[3, 0]⟩⟩]

theorem strip_block_exact_crowded :
    (0x8000 : UInt16).toNat.isPowerOfTwo ∧ 2 + 5 ≤ maxLength ∧
    strip (ExtraBlock.encodeAll crowded) = ⟨#[0x55, 0x54, 1, 0, 7]⟩ ∧
    find? (ExtraBlock.encodeAll crowded) = none ∧
    find? (⟨#[0x55, 0x54, 1, 0, 7]⟩ ++ block 0x8000 5) = some 0x8000 ∧
    strip (⟨#[0x55, 0x54, 1, 0, 7]⟩ ++ block 0x8000 5) = ⟨#[0x55, 0x54, 1, 0, 7]⟩ := by
  have hpower : (0x8000 : UInt16).toNat.isPowerOfTwo := ⟨15, rfl⟩
  have hparse : ExtraBlock.parse? (ExtraBlock.encodeAll crowded) = some crowded :=
    ExtraBlock.parse?_encodeAll (by decide)
  have hstrip : strip (ExtraBlock.encodeAll crowded) = ⟨#[0x55, 0x54, 1, 0, 7]⟩ := by
    rw [strip, hparse]
    decide
  have hfind : find? (ExtraBlock.encodeAll crowded) = none := by
    rw [find?, hparse]
    decide
  have hfits : 2 + 5 ≤ maxLength := by decide
  obtain ⟨-, -, -, -, hfound, hback⟩ :=
    strip_block_exact (ExtraBlock.encodeAll crowded) hpower hfits
  rw [hstrip] at hfound hback
  exact ⟨hpower, hfits, hstrip, hfind, hfound, hback⟩

end Alignment

end ClassicZip
