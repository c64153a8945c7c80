import ClassicZip.Codec.Zstd.HuffmanStreams

/-!
# Literals sections

The bytes that a block's sequences copy in order: plain, one byte repeated, or Huffman coded with
a table of their own or with the one before.
-/

namespace ClassicZip.Codec.Zstd

def spareSize : Nat := 32

structure Literals where
  bytes : ByteArray
  /-- The decoder that later blocks can use again. -/
  decoder : Option HuffmanDecoder
  /-- The size of the section in its block. -/
  size : Nat
  /-- The bytes are used where they stand in the block. -/
  inPlace : Bool

namespace Literals

def plainHeader (block : ByteArray) : Nat × Nat :=
  let head := (Bytes.u32At block 0).toNat
  if head / 4 % 2 = 0 then (1, head % 256 / 8)
  else if head / 8 % 2 = 0 then (2, head % 2 ^ 16 / 16)
  else (3, head % 2 ^ 24 / 16)

def codedHeader (block : ByteArray) : Nat × Nat × Nat :=
  let head := (Bytes.u32At block 0).toNat + 2 ^ 32 * (Bytes.byteAt block 4).toNat
  let form := head / 4 % 4
  if form < 2 then (3, head / 2 ^ 4 % 2 ^ 10, head / 2 ^ 14 % 2 ^ 10)
  else if form = 2 then (4, head / 2 ^ 4 % 2 ^ 14, head / 2 ^ 18 % 2 ^ 14)
  else (5, head / 2 ^ 4 % 2 ^ 18, head / 2 ^ 22 % 2 ^ 18)

def decodeCoded? (decoder : HuffmanDecoder) (four : Bool) (count : Nat) (coded : ByteArray) :
    Option ByteArray :=
  if four then decoder.decodeFour? count coded
  else decoder.decodeStream? count coded ByteArray.empty

def ofBlock? (most : Nat) (previous : Option HuffmanDecoder) (block : ByteArray) :
    Option Literals :=
  if block.size < 2 then none
  else
    let kind := (Bytes.byteAt block 0).toNat % 4
    if kind = 0 then
      let (head, count) := plainHeader block
      if most < count || block.size < head + count then none
      else some ⟨Bytes.slice block head count, previous, head + count,
        head + count + spareSize ≤ block.size⟩
    else if kind = 1 then
      let (head, count) := plainHeader block
      if most < count || block.size < head + 1 then none
      else some ⟨⟨Array.replicate count (Bytes.byteAt block head)⟩, previous, head + 1, false⟩
    else
      let (head, count, size) := codedHeader block
      let four := (Bytes.byteAt block 0).toNat / 4 % 4 != 0
      if block.size < 5 || most < count || block.size < head + size then none
      else
        let coded := Bytes.slice block head size
        let found :=
          if kind = 3 then previous.map fun decoder => (decoder, coded)
          else (HuffmanTable.ofBytes? coded).map fun (table, tableSize) =>
            let paired := four && DecodingTime.pairsPay count size
            (.ofTable table paired, coded.extract tableSize size)
        match found with
        | none => none
        | some (decoder, coded) =>
          (decodeCoded? decoder four count coded).map
            fun bytes => ⟨bytes, some decoder, head + size, false⟩

end Literals

end ClassicZip.Codec.Zstd
