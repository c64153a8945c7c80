import ClassicZip.Codec.BitWriter
import ClassicZip.Codec.Repeats
import ClassicZip.Codec.Zstd.Decoding

/-!
# Encoding zstd streams

One frame with a window of 8 MiB. Every match is a block of its own with the literals before it:
one sequence, whose three codes are given outright, so its block needs no entropy coding. An empty
last block ends the frame.
-/

namespace ClassicZip.Codec.Zstd

def windowLog : Nat := 23

def limits : RepeatLimits := ⟨32, 65536, 2 ^ windowLog⟩

def maxLiterals : Nat := 65536

def numberBytes (value : Nat) : Nat → ByteArray → ByteArray
  | 0, bytes => bytes
  | count + 1, bytes => numberBytes (value / 256) count (bytes.push (value % 256).toUInt8)

def blockHead (last : Bool) (kind size : Nat) (output : ByteArray) : ByteArray :=
  numberBytes (size * 8 + kind * 2 + if last then 1 else 0) 3 output

def plainBlock (literals output : ByteArray) : ByteArray :=
  blockHead false 0 literals.size output ++ literals

def codeOf (spans : Array CodeSpan) (value : Nat) : Nat :=
  (spans.findIdx? fun span => value < span.base).getD spans.size - 1

def putExtra (writer : BitWriter) (spans : Array CodeSpan) (code value : Nat) : BitWriter :=
  let span := spans[code]?.getD default
  writer.put (value - span.base) span.extraBits

def sequenceBlock (literals : ByteArray) (length distance : Nat) (output : ByteArray) :
    ByteArray :=
  let literalCode := codeOf literalSpans literals.size
  let matchCode := codeOf matchSpans length
  let offsetValue := distance + 3
  let offsetCode := offsetValue.log2
  let writer := BitWriter.empty .lowFirst
  let writer := putExtra writer literalSpans literalCode literals.size
  let writer := putExtra writer matchSpans matchCode length
  let writer := writer.put (offsetValue - 2 ^ offsetCode) offsetCode
  let bits := (writer.put 1 1).toBytes
  let head := numberBytes (literals.size * 16 + 12) 3 ByteArray.empty
  let codes : ByteArray :=
    ⟨#[1, 0x54, literalCode.toUInt8, offsetCode.toUInt8, matchCode.toUInt8]⟩
  let block := head ++ literals ++ codes ++ bits
  blockHead false 2 block.size output ++ block

structure Compressing where
  output : ByteArray
  literals : ByteArray

namespace Compressing

def flush : Compressing → Compressing
  | ⟨output, literals⟩ =>
    if literals.size = 0 then ⟨output, literals⟩
    else ⟨plainBlock literals output, ByteArray.empty⟩

def add : Compressing → Token → Compressing
  | ⟨output, literals⟩, .literal byte =>
    let literals := literals.push byte
    if literals.size < maxLiterals then ⟨output, literals⟩ else flush ⟨output, literals⟩
  | ⟨output, literals⟩, .copy length distance =>
    ⟨sequenceBlock literals length distance output, ByteArray.empty⟩

end Compressing

def encode (data : ByteArray) : ByteArray :=
  let head : ByteArray := ⟨#[0, ((windowLog - 10) * 8).toUInt8]⟩
  let start : Compressing := ⟨numberBytes frameMagic 4 ByteArray.empty ++ head, ByteArray.empty⟩
  let written := ((tokens limits data).foldl Compressing.add start).flush
  blockHead true 0 0 written.output

end ClassicZip.Codec.Zstd
