import ClassicZip.Proofs.Extra.Stripping

/-!
# Extra fields that are renewed

A copy of an entry gets a new extra field: the old one without its alignment blocks and, where it
recorded an alignment, one new block behind the rest. Whatever the old field was, bare padding, or
with several alignment blocks, or with ones that are too short, the new one records the same
alignment and has the same other blocks. So nothing more is lost when it is renewed again.
-/

namespace ClassicZip

open Bytes

namespace Alignment

theorem ne_zero_of_isPowerOfTwo {alignment : UInt16} (h : isPowerOfTwo alignment = true) :
    alignment ≠ 0 := by
  rintro rfl
  cases h

theorem isPowerOfTwo_of_find? {extra : ByteArray} {alignment : UInt16}
    (h : find? extra = some alignment) : isPowerOfTwo alignment = true := by
  unfold find? at h
  split at h
  · cases h
  · split at h
    · cases h
    · dsimp only at h
      split at h
      · obtain rfl := Option.some.inj h
        assumption
      · cases h

/-- The extra field that a copy gets for an old one. -/
inductive Renewed (extra : ByteArray) : ByteArray → Prop
  | unaligned : find? extra = none → Renewed extra (strip extra)
  | aligned {alignment : UInt16} (padding : Nat) : find? extra = some alignment →
      2 + padding ≤ maxLength → Renewed extra (strip extra ++ block alignment padding)

section
variable {extra renewed : ByteArray}

theorem Renewed.find?_eq (h : Renewed extra renewed) : find? renewed = find? extra := by
  cases h with
  | unaligned hnone => rw [hnone, find?_strip]
  | aligned padding hsome hpadding =>
    rw [hsome, find?_strip_append_block hpadding (isPowerOfTwo_of_find? hsome)]

theorem Renewed.strip_eq (h : Renewed extra renewed) : strip renewed = strip extra := by
  cases h with
  | unaligned _ => exact strip_strip
  | aligned padding _ hpadding => exact strip_strip_append_block hpadding

end

end Alignment

end ClassicZip
