import ClassicZip.Codec.Zstd.Huffman

/-!
# Huffman streams

Coded bytes are one stream, or four streams of a quarter of the bytes each. A look-up takes a fixed
number of bits and yields a byte or, in pairs, two bytes where both words fit. A stream must be used
up exactly. Where its last byte comes from a look-up that finds two, the word of the second one is
taken too, as far as it is there.

Four streams that are not too short are decoded side by side. Only then is it not looked at where
they end: what stands in front of a stream counts as more of it.
-/

namespace ClassicZip.Codec.Zstd

structure HuffmanDecoder where
  table : HuffmanTable
  /-- Words are looked up in pairs. -/
  paired : Bool
  /-- How many bits a look-up takes. -/
  width : Nat

inductive HuffmanWords
  | one (word : HuffmanCell)
  | two (first second : HuffmanCell)

/-- The time that it takes to make a table, and to decode 256 bytes with it. -/
structure DecodingTime where
  table : Nat
  decoding : Nat

namespace DecodingTime

def total (time : DecodingTime) (count : Nat) : Nat := time.table + time.decoding * (count / 256)

/-- The times of single words, by the sixteenths of their bytes that the coded bytes take. -/
def singles : Array DecodingTime :=
  #[⟨0, 0⟩, ⟨0, 0⟩, ⟨150, 216⟩, ⟨170, 205⟩, ⟨177, 199⟩, ⟨197, 194⟩, ⟨221, 192⟩, ⟨256, 189⟩,
    ⟨359, 188⟩, ⟨582, 187⟩, ⟨688, 187⟩, ⟨825, 186⟩, ⟨976, 185⟩, ⟨1180, 186⟩, ⟨1377, 185⟩,
    ⟨1412, 185⟩]

def pairs : Array DecodingTime :=
  #[⟨1, 1⟩, ⟨1, 1⟩, ⟨381, 119⟩, ⟨514, 112⟩, ⟨539, 110⟩, ⟨644, 107⟩, ⟨735, 107⟩, ⟨881, 106⟩,
    ⟨1167, 109⟩, ⟨1570, 114⟩, ⟨1712, 122⟩, ⟨1965, 136⟩, ⟨2131, 150⟩, ⟨2070, 175⟩, ⟨1731, 202⟩,
    ⟨1695, 202⟩]

def pairsPay (count size : Nat) : Bool :=
  let share := min 15 (16 * size / max 1 count)
  let single := (singles[share]?.map fun time => time.total count).getD 0
  let paired := (pairs[share]?.map fun time => time.total count).getD 0
  paired + paired / 32 < single

end DecodingTime

namespace HuffmanDecoder

/-- The bits that most look-ups take; only larger tables need one more. -/
def usualWidth : Nat := 11

def ofTable (table : HuffmanTable) (paired : Bool) : HuffmanDecoder :=
  ⟨table, paired, max usualWidth table.log⟩

def cell (decoder : HuffmanDecoder) (index : Nat) : HuffmanCell :=
  decoder.table.cells[index >>> (decoder.width - decoder.table.log)]?.getD default

def find (decoder : HuffmanDecoder) (index : Nat) : HuffmanWords :=
  let first := decoder.cell index
  if decoder.paired then
    let second := decoder.cell ((index <<< first.bits) % 2 ^ decoder.width)
    if first.bits + second.bits ≤ decoder.width then .two first second else .one first
  else .one first

def decodeOnto (decoder : HuffmanDecoder) :
    Nat → BackwardBits → ByteArray → ByteArray × BackwardBits
  | 0, bits, output => (output, bits)
  | count + 1, bits, output =>
    match decoder.find (bits.look decoder.width), count with
    | .one word, count => decodeOnto decoder count (bits.skip word.bits) (output.push word.byte)
    | .two first second, 0 =>
      (output.push first.byte, bits.skip (min bits.left (first.bits + second.bits)))
    | .two first second, count + 1 =>
      decodeOnto decoder count (bits.skip (first.bits + second.bits))
        ((output.push first.byte).push second.byte)

def decodeStream? (decoder : HuffmanDecoder) (count : Nat) (stream output : ByteArray) :
    Option ByteArray :=
  match BackwardBits.ofBytes? stream with
  | none => none
  | some bits =>
    let (output, rest) := decoder.decodeOnto count bits output
    if rest.isSpent then some output else none

/-- One of four streams that are decoded side by side. -/
structure Lane where
  /-- Where the stream starts among the bytes of all four. -/
  start : Nat
  bits : BackwardBits
  /-- How many bytes are still to come. -/
  remaining : Nat
  output : ByteArray

namespace Lane

/-- The stream of `count` bytes from `start` to `stop`. A last byte of zero has no mark. -/
def ofBytes (bytes : ByteArray) (start stop count : Nat) : Lane :=
  let last := (Bytes.byteAt bytes (stop - 1)).toNat
  let left := if last = 0 then 8 * stop else 8 * (stop - 1) + last.log2
  ⟨start, ⟨bytes, left, 0⟩, count, ByteArray.empty⟩

/-- How many bytes from the front of all streams are not read to their end. -/
def unread (lane : Lane) : Nat := (lane.bits.left + 7) / 8

def lookUp (decoder : HuffmanDecoder) : Nat → Lane → Lane
  | 0, lane => lane
  | count + 1, ⟨start, bits, remaining, output⟩ =>
    match decoder.find (bits.look decoder.width) with
    | .one word =>
      lookUp decoder count ⟨start, bits.skip word.bits, remaining - 1, output.push word.byte⟩
    | .two first second =>
      lookUp decoder count ⟨start, bits.skip (first.bits + second.bits), remaining - 2,
        (output.push first.byte).push second.byte⟩

/-- The output once all bytes have come. The stream must not have been left far behind before. -/
def finish? (decoder : HuffmanDecoder) (lane : Lane) : Option ByteArray :=
  if lane.unread < lane.start then none
  else some (decoder.decodeOnto lane.remaining lane.bits lane.output).1

end Lane

def roundSize : Nat := 5

def roundBytes : Nat := 7

def sureRounds (decoder : HuffmanDecoder) (lanes : List Lane) : Nat :=
  let most := if decoder.paired then 2 * roundSize else roundSize
  let first := (lanes.head?.map Lane.unread).getD 0
  lanes.foldl (fun rounds lane => min rounds (lane.remaining / most)) ((first - 8) / roundBytes)

def areInOrder (lanes : List Lane) : Bool :=
  (lanes.zip (lanes.drop 1)).all fun (lane, next) => lane.unread ≤ next.unread

def lastRemaining (lanes : List Lane) : Nat := (lanes.getLast?.map Lane.remaining).getD 0

/-- Makes rounds until the last stream has only `goal` bytes to come, and then as many again as can
be made for sure. `fuel` bounds the rounds and the turns between them. -/
def sideBySide (decoder : HuffmanDecoder) : Nat → Nat → List Lane → List Lane
  | 0, _, lanes => lanes
  | fuel + 1, goal, lanes =>
    if goal < lastRemaining lanes then
      sideBySide decoder fuel goal (lanes.map (Lane.lookUp decoder roundSize))
    else
      let rounds := decoder.sureRounds lanes
      if rounds = 0 || !areInOrder lanes then lanes
      else sideBySide decoder fuel (lastRemaining lanes - roundSize * rounds) lanes

structure Part where
  start : Nat
  stop : Nat
  count : Nat

/-- The four streams behind the lengths of the first three; each but the last yields a quarter of
the bytes, rounded up. -/
def parts? (count : Nat) (bytes : ByteArray) : Option (List Part) :=
  let quarter := (count + 3) / 4
  let stop1 := 6 + (Bytes.u16At bytes 0).toNat
  let stop2 := stop1 + (Bytes.u16At bytes 2).toNat
  let stop3 := stop2 + (Bytes.u16At bytes 4).toNat
  if bytes.size < 10 || bytes.size < stop3 || count < 6 then none
  else some [⟨6, stop1, quarter⟩, ⟨stop1, stop2, quarter⟩, ⟨stop2, stop3, quarter⟩,
    ⟨stop3, bytes.size, count - 3 * quarter⟩]

def decodeParts? (decoder : HuffmanDecoder) (bytes : ByteArray) (parts : List Part) :
    Option ByteArray :=
  parts.foldlM (fun output part =>
    decoder.decodeStream? part.count (bytes.extract part.start part.stop) output) ByteArray.empty

def decodeFour? (decoder : HuffmanDecoder) (count : Nat) (bytes : ByteArray) : Option ByteArray :=
  match parts? count bytes with
  | none => none
  | some parts =>
    let isLong (part : Part) : Bool := 8 ≤ part.stop - part.start && 0 < part.count
    if decoder.width = usualWidth && parts.all isLong then
      let lanes := parts.map fun part => Lane.ofBytes bytes part.start part.stop part.count
      let lanes := decoder.sideBySide (count + 1) (lastRemaining lanes) lanes
      (lanes.mapM (Lane.finish? decoder)).map fun outputs => outputs.foldl (· ++ ·) ByteArray.empty
    else decoder.decodeParts? bytes parts

end HuffmanDecoder

end ClassicZip.Codec.Zstd
