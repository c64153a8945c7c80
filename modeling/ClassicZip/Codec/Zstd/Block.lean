import ClassicZip.Codec.Zstd.FrameHeader
import ClassicZip.Codec.Zstd.Literals
import ClassicZip.Codec.Zstd.Sequences

/-!
# Compressed blocks

A block's literals and sequences, put onto the output. A frame hands on its tables, its last
offsets and its history from block to block.
-/

namespace ClassicZip.Codec.Zstd

structure Frame where
  header : FrameHeader
  /-- The size of the output in front of the frame. -/
  start : Nat
  history : History
  /-- What the buffer for literals holds. -/
  literals : ByteArray
  huffman : Option HuffmanDecoder
  tables : Option SequenceTables
  offsets : Offsets

inductive Target
  /-- A buffer of the decoder with so much room; a block is no larger than its frame allows. -/
  | buffer (room : Nat)
  /-- The caller's portion with so much room. -/
  | portion (room : Nat)

namespace Target

def room : Target → Nat
  | buffer room => room
  | portion room => room

/-- The most bytes that a block with these literals may yield. In a portion, literals that are not
used where they stand are kept behind the block where there is room for them, which leaves the block
little more than its regular size. -/
def capacity (blockSize : Nat) (literals : Literals) : Target → Nat
  | buffer room => min room blockSize
  | portion room =>
    if !literals.inPlace && blockSize + 2 * spareSize + literals.bytes.size < room then
      blockSize + spareSize
    else room

end Target

namespace Frame

def ofHeader (header : FrameHeader) (size : Nat) : Frame :=
  ⟨header, size, .start size, ByteArray.empty, none, none, Offsets.start⟩

def mayEndAt (frame : Frame) (size : Nat) : Bool :=
  frame.header.contentSize.all (frame.start + · == size)

/-- The literals of a block with what stands behind them, in the block or in the buffer for
literals, and the frame with that buffer filled. -/
def source (frame : Frame) (literals : Literals) (block : ByteArray) : Frame × LiteralSource :=
  let count := literals.bytes.size
  if literals.inPlace then
    let behind := block.extract literals.size (literals.size + spareSize)
    (frame, ⟨literals.bytes ++ behind, count⟩)
  else
    let filled := literals.bytes ++ frame.literals.extract count frame.literals.size
    let behind := filled ++ ⟨Array.replicate spareSize 0⟩
    ({ frame with literals := filled }, ⟨behind.extract 0 (count + spareSize), count⟩)

def decodeBlock? (frame : Frame) (target : Target) (block output : ByteArray) :
    Option (Frame × ByteArray) :=
  let blockSize := frame.header.blockSize
  if blockSize < block.size then none
  else match Literals.ofBlock? (min target.room blockSize) frame.huffman block with
  | none => none
  | some literals =>
    let part := block.extract literals.size block.size
    let limit := output.size + target.capacity blockSize literals
    let (frame, source) := frame.source literals block
    let frame := { frame with huffman := literals.decoder }
    match sequenceCount? part with
    | none => none
    | some (0, size) =>
      if part.size = size && output.size + literals.bytes.size ≤ limit then
        some (frame, output ++ literals.bytes)
      else none
    | some (count, size) =>
      match sequenceTables? frame.tables (part.extract size part.size) with
      | none => none
      | some (tables, tablesSize) =>
        match BackwardBits.ofBytes? (part.extract (size + tablesSize) part.size) with
        | none => none
        | some bits =>
          let start := SequenceState.start tables bits frame.offsets frame.history output
          match start.run? .present tables source limit count with
          | none => none
          | some last =>
            let rest := source.rest last.literalsUsed
            if last.bits.isSpent && last.output.size + rest.size ≤ limit then
              some ({ frame with
                  history := last.history, tables := some tables, offsets := last.offsets },
                last.output ++ rest)
            else none

def repeatByte (byte : UInt8) (count : Nat) (output : ByteArray) : ByteArray :=
  output ++ ⟨Array.replicate count byte⟩

/-- Decodes the blocks from `position` on right into a portion that ends with an output of `limit`
bytes; answers where they end. `fuel` bounds the blocks. -/
def decodeBlocks? (bytes : ByteArray) (limit : Nat) :
    Nat → Nat → Frame → ByteArray → Option (Nat × ByteArray)
  | 0, _, _, _ => none
  | fuel + 1, position, frame, output =>
    let header := BlockHeader.read bytes position
    let start := position + 3
    let next := start + header.storedSize
    let room := limit - output.size
    let decoded :=
      if header.kind = 2 then
        frame.decodeBlock? (.portion room) (Bytes.slice bytes start header.size) output
      else if room < header.size then none
      else if header.kind = 1 then
        some (frame, repeatByte (Bytes.byteAt bytes start) header.size output)
      else some (frame, output ++ Bytes.slice bytes start header.size)
    match decoded with
    | none => none
    | some (frame, output) =>
      if header.last then some (next, output)
      else decodeBlocks? bytes limit fuel next frame output

end Frame

end ClassicZip.Codec.Zstd
