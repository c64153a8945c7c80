import ClassicZip.Codec.BitWriter
import ClassicZip.Codec.Deflate.Tables
import ClassicZip.Codec.Repeats

/-!
# Encoding deflate streams

Level 0 stores the data in blocks. Every other level writes one block with the fixed tables.
-/

namespace ClassicZip.Codec.Deflate

def fixedWord (symbol : Nat) : Nat × Nat :=
  if symbol < 144 then (48 + symbol, 8)
  else if symbol < 256 then (400 + (symbol - 144), 9)
  else if symbol < 280 then (symbol - 256, 7)
  else (192 + (symbol - 280), 8)

def reverseBits (word : Nat) : Nat → Nat
  | 0 => 0
  | count + 1 => word % 2 * 2 ^ count + reverseBits (word / 2) count

def putWord (writer : BitWriter) (word : Nat × Nat) : BitWriter :=
  writer.put (reverseBits word.1 word.2) word.2

def spanIndex (spans : Array Span) (value : Nat) : Nat :=
  (spans.findIdx? fun span => value < span.base).getD spans.size - 1

def putExtra (writer : BitWriter) (spans : Array Span) (index value : Nat) : BitWriter :=
  match spans[index]? with
  | none => writer
  | some span => writer.put (value - span.base) span.extraBits

def putToken (writer : BitWriter) : Token → BitWriter
  | .literal byte => putWord writer (fixedWord byte.toNat)
  | .copy length distance =>
    let lengthIndex := spanIndex lengthSpans length
    let distanceIndex := spanIndex distanceSpans distance
    let writer := putWord writer (fixedWord (257 + lengthIndex))
    let writer := putExtra writer lengthSpans lengthIndex length
    let writer := putWord writer (distanceIndex, 5)
    putExtra writer distanceSpans distanceIndex distance

def limits : RepeatLimits := ⟨3, 258, 32768⟩

def encodeFixed (data : ByteArray) : ByteArray :=
  let writer := (BitWriter.empty .lowFirst).put 3 3
  let writer := (tokens limits data).foldl putToken writer
  (putWord writer (fixedWord endOfBlock)).toBytes

/-- The data from `start` on in stored blocks; `fuel` bounds the blocks. -/
def storedFrom (data : ByteArray) : Nat → Nat → ByteArray → ByteArray
  | 0, _, output => output
  | fuel + 1, start, output =>
    let size := min 65535 (data.size - start)
    let last := start + size = data.size
    let head : ByteArray := ⟨#[if last then 1 else 0]⟩
    let output := output ++ head ++ Bytes.le16 (UInt16.ofNat size) ++
      Bytes.le16 (UInt16.ofNat (65535 - size)) ++ Bytes.slice data start size
    if last then output else storedFrom data fuel (start + size) output

def encodeStored (data : ByteArray) : ByteArray :=
  storedFrom data (data.size / 65535 + 1) 0 ByteArray.empty

def encode (level : Nat) (data : ByteArray) : ByteArray :=
  if level = 0 then encodeStored data else encodeFixed data

end ClassicZip.Codec.Deflate
