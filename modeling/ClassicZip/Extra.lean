import ClassicZip.Record

/-!
# Extra fields

An extra field is a sequence of blocks: an id, a length and that many bytes. One id marks the
alignment block, whose zero padding pushes the entry's data onto a multiple of the alignment that
the block records, so that a later copy of the entry can align it again.
-/

namespace ClassicZip

structure ExtraBlock where
  id : UInt16
  data : ByteArray
  deriving DecidableEq

namespace ExtraBlock

def encode (block : ExtraBlock) : ByteArray :=
  Bytes.le16 block.id ++ Bytes.le16 (UInt16.ofNat block.data.size) ++ block.data

def encodeAll (blocks : List ExtraBlock) : ByteArray :=
  blocks.foldl (fun bytes block => bytes ++ block.encode) ByteArray.empty

def take? (cursor : Cursor) : Option (ExtraBlock × Cursor) :=
  match cursor.takeU16 with
  | .error _ => none
  | .ok (id, afterId) =>
    match afterId.takeU16 with
    | .error _ => none
    | .ok (length, afterLength) =>
      match afterLength.take length.toNat with
      | .error _ => none
      | .ok (data, next) => some (⟨id, data⟩, next)

theorem remaining_of_take? {cursor next : Cursor} {block : ExtraBlock}
    (h : take? cursor = some (block, next)) : next.remaining < cursor.remaining := by
  unfold take? Cursor.takeU16 Cursor.take Cursor.peek at h
  unfold Cursor.remaining at *
  grind

def takeAll? (cursor : Cursor) : Option (List ExtraBlock) :=
  if cursor.isAtEnd then some []
  else
    match _h : take? cursor with
    | none => none
    | some (block, next) => (takeAll? next).map (block :: ·)
termination_by cursor.remaining
decreasing_by exact remaining_of_take? _h

/-- Splits an extra field into its blocks; bare padding is no sequence of blocks. -/
def parse? (extra : ByteArray) : Option (List ExtraBlock) :=
  takeAll? (Cursor.ofBytes extra)

end ExtraBlock

namespace Alignment

def blockId : UInt16 := 0xD935

/-- Bytes of an alignment block in front of its padding: id, length and alignment. -/
def blockHead : Nat := 6

def isPowerOfTwo (value : UInt16) : Bool :=
  value != 0 && value &&& (value - 1) == 0

/-- Where data behind a local header at `offset` would start if its alignment block had no padding.
`variableSize` counts the name and the extra bytes before the block. -/
def unpadded (offset variableSize : Nat) : Nat :=
  offset + LocalHeader.fixedSize + variableSize + blockHead

/-- The zero bytes an alignment block needs so that the data starts at a multiple of `alignment`. -/
def padding (offset variableSize : Nat) (alignment : UInt16) : Nat :=
  (alignment.toNat - unpadded offset variableSize % alignment.toNat) % alignment.toNat

/-- The padding, where there is an alignment to pad to and the offset can be counted in 64 bits. -/
def padding? (offset variableSize : Nat) (alignment : UInt16) : Option Nat :=
  if unpadded offset variableSize < 2 ^ 64 ∧ alignment ≠ 0 then
    some (padding offset variableSize alignment)
  else none

theorem alignment_dvd_padded (offset variableSize : Nat) {alignment : UInt16}
    (h : 0 < alignment.toNat) :
    alignment.toNat ∣
      unpadded offset variableSize + padding offset variableSize alignment := by
  unfold padding
  generalize unpadded offset variableSize = start
  have hlt := Nat.mod_lt start h
  have hsplit := Nat.div_add_mod start alignment.toNat
  rcases Nat.eq_zero_or_pos (start % alignment.toNat) with hz | hp
  · exact ⟨start / alignment.toNat, by simp [hz]; omega⟩
  · rw [Nat.mod_eq_of_lt (by omega)]
    exact ⟨start / alignment.toNat + 1, by rw [Nat.mul_add]; omega⟩

/-- An alignment block with `padding` zero bytes. Its length field keeps the low 16 bits. -/
def block (alignment : UInt16) (padding : Nat) : ByteArray :=
  Bytes.le16 blockId ++ Bytes.le16 (UInt16.ofNat (2 + padding)) ++ Bytes.le16 alignment ++
    Bytes.zeros padding

@[simp] theorem size_block (alignment : UInt16) (padding : Nat) :
    (block alignment padding).size = blockHead + padding := by
  simp [block, blockHead]

/-- The alignment that an extra field records: the first alignment block long enough to hold one
decides, and only a power of two counts. -/
def find? (extra : ByteArray) : Option UInt16 :=
  match ExtraBlock.parse? extra with
  | none => none
  | some blocks =>
    match blocks.find? fun block => block.id == blockId && 2 ≤ block.data.size with
    | none => none
    | some block =>
      let alignment := Bytes.u16At block.data 0
      if isPowerOfTwo alignment then some alignment else none

/-- An extra field without its alignment blocks; one that is no sequence of blocks counts as
padding and goes altogether. -/
def strip (extra : ByteArray) : ByteArray :=
  match ExtraBlock.parse? extra with
  | none => ByteArray.empty
  | some blocks => ExtraBlock.encodeAll (blocks.filter fun block => block.id != blockId)

end Alignment

end ClassicZip
