import ClassicZip.Codec.BitWriter
import ClassicZip.Codec.Bzip2.Rotations
import ClassicZip.Codec.PrefixCode.Building
import ClassicZip.Crc32

/-!
# Encoding bzip2 streams

The data is cut into pieces that fit a block even when every four bytes of it take five. A block
is coded with one table, which is written twice because the format asks for two.
-/

namespace ClassicZip.Codec.Bzip2

def maxWord : Nat := 17

/-- Data bytes in a block, for each unit of the block size. -/
def pieceUnit : Nat := 79000

/-- One run: up to four bytes, and the count of the others when there are four. -/
def pushRunBytes (output : ByteArray) (byte : UInt8) (count : Nat) : ByteArray :=
  let output := (List.replicate (min 4 count) byte).foldl ByteArray.push output
  if count < 4 then output else output.push (count - 4).toUInt8

/-- Shortens runs of four and more, with the run so far pending. -/
structure RunWriter where
  output : ByteArray
  byte : UInt8
  count : Nat

namespace RunWriter

def flush : RunWriter → ByteArray
  | ⟨output, byte, count⟩ => pushRunBytes output byte count

def add : RunWriter → UInt8 → RunWriter
  | ⟨output, byte, count⟩, next =>
    if count = 0 then ⟨output, next, 1⟩
    else if next = byte && count < 259 then ⟨output, byte, count + 1⟩
    else ⟨pushRunBytes output byte count, next, 1⟩

end RunWriter

def shortenRuns (data : ByteArray) : ByteArray :=
  (data.foldl RunWriter.add ⟨ByteArray.empty, 0, 0⟩).flush

/-- The digits of a run of most recent bytes, the low one first; `fuel` bounds them. -/
def runDigits : Nat → Nat → Array Nat → Array Nat
  | 0, _, symbols => symbols
  | fuel + 1, run, symbols =>
    if run = 0 then symbols
    else if run % 2 = 1 then runDigits fuel (run / 2) (symbols.push 0)
    else runDigits fuel (run / 2 - 1) (symbols.push 1)

/-- The symbols so far, the bytes in the order of recency, and a run that is not yet written. -/
structure RecencyWriter where
  symbols : Array Nat
  recent : List UInt8
  run : Nat

namespace RecencyWriter

def flush : RecencyWriter → RecencyWriter
  | ⟨symbols, recent, run⟩ => ⟨runDigits (run + 1) run symbols, recent, 0⟩

def add (writer : RecencyWriter) (byte : UInt8) : RecencyWriter :=
  match writer.recent.idxOf byte with
  | 0 => { writer with run := writer.run + 1 }
  | place + 1 =>
    let ⟨symbols, recent, _⟩ := writer.flush
    ⟨symbols.push (place + 2), byte :: recent.erase byte, 0⟩

end RecencyWriter

def symbolsOf (used : List UInt8) (column : ByteArray) : Array Nat :=
  let ⟨symbols, _, _⟩ := (column.foldl RecencyWriter.add ⟨#[], used, 0⟩).flush
  symbols.push (used.length + 1)

def putFlags (writer : BitWriter) (flags : List Bool) : BitWriter :=
  flags.foldl (fun writer flag => writer.put (if flag then 1 else 0) 1) writer

/-- Sixteen ranges, then the members of those that have any. -/
def putUsed (writer : BitWriter) (used : List UInt8) : BitWriter :=
  let members := fun range => (List.range 16).map fun member =>
    used.contains (16 * range + member).toUInt8
  let ranges := (List.range 16).filter fun range => (members range).any id
  let writer := putFlags writer ((List.range 16).map ranges.contains)
  ranges.foldl (fun writer range => putFlags writer (members range)) writer

def putLength (writer : BitWriter) (current target : Nat) : BitWriter :=
  let step := if current < target then 2 else 3
  let distance := (target - current) + (current - target)
  ((List.replicate distance step).foldl (fun writer step => writer.put step 2) writer).put 0 1

def putTable (writer : BitWriter) (lengths : Array Nat) : BitWriter :=
  let first := lengths[0]?.getD 0
  (lengths.foldl (fun (writer, current) length => (putLength writer current length, length))
    (writer.put first 5, first)).1

def putMagic (writer : BitWriter) (magic : Nat) : BitWriter :=
  (writer.put (magic / 2 ^ 24) 24).put magic 24

def putBlock (writer : BitWriter) (piece : ByteArray) (checksum : UInt32) : BitWriter :=
  let block := shortenRuns piece
  let sorted := sortRotations block
  let column := sorted.foldl
    (fun column start =>
      column.push (Bytes.byteAt block ((start + block.size - 1) % block.size)))
    ByteArray.empty
  let origin := (sorted.findIdx? (· == 0)).getD 0
  let present := block.foldl
    (fun present byte => present.setIfInBounds byte.toNat true) (Array.replicate 256 false)
  let used := ((List.range 256).filter fun value => present[value]?.getD false).map (·.toUInt8)
  let symbols := symbolsOf used column
  let counts := symbols.foldl
    (fun counts symbol => counts.modify symbol (· + 1)) (Array.replicate (used.length + 2) 1)
  let lengths := PrefixCode.lengthsFor maxWord 20 counts
  let words := PrefixCode.wordsOf maxWord lengths
  let selectorCount := (symbols.size + 49) / 50
  let writer := putMagic writer 0x314159265359
  let writer := ((writer.put checksum.toNat 32).put 0 1).put origin 24
  let writer := ((putUsed writer used).put 2 3).put selectorCount 15
  let writer := putFlags writer (List.replicate selectorCount false)
  let writer := putTable (putTable writer lengths) lengths
  symbols.foldl
    (fun writer symbol => writer.put (words[symbol]?.getD 0) (lengths[symbol]?.getD 0)) writer

/-- Writes the data from `start` on in blocks of `piece` bytes; `fuel` bounds the blocks. The
checksum of the stream so far goes along. -/
def putBlocks (data : ByteArray) (piece : Nat) :
    Nat → Nat → BitWriter → UInt32 → BitWriter × UInt32
  | 0, _, writer, stream => (writer, stream)
  | fuel + 1, start, writer, stream =>
    if data.size ≤ start then (writer, stream)
    else
      let bytes := data.extract start (start + piece)
      let checksum := Checksum.ofRegister (bytes.foldl Checksum.step Checksum.initial)
      putBlocks data piece fuel (start + piece) (putBlock writer bytes checksum)
        (Checksum.combine stream checksum)

def encode (level : Nat) (data : ByteArray) : ByteArray :=
  let writer := ((BitWriter.empty .highFirst).put 0x425A68 24).put (0x30 + level) 8
  let piece := level * pieceUnit
  let (writer, stream) := putBlocks data piece (data.size / piece + 1) 0 writer 0
  ((putMagic writer 0x177245385090).put stream.toNat 32).toBytes

end ClassicZip.Codec.Bzip2
