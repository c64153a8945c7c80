import ClassicZip.Codec.Zstd.Early.Version
import ClassicZip.Codec.Zstd.Literals

/-!
# Literals of the early versions

Their headers have the highest bits first: the kind, the form and the sizes. Weights of a Huffman
table can also be all alike, and the chains of states that yield them end differently.
-/

namespace ClassicZip.Codec.Zstd

namespace Distribution

def earlyOfBytes? (maxSymbol maxLog : Nat) (bytes : ByteArray) : Option (Distribution × Nat) :=
  if bytes.size < 4 then none else read? bytes id maxSymbol maxLog bytes.size

/-- No symbol has half of the states or more. -/
def isEven (distribution : Distribution) : Bool :=
  distribution.shares.all (· < (2 ^ (distribution.log - 1) : Nat))

end Distribution

namespace HuffmanTable

/-- Weights in two interleaved chains that come to rest in their first states when the stream is
spent; `fuel` bounds them. -/
def restingWeights (table : FseTable) (isEven : Bool) :
    Nat → Nat → Nat → BackwardBits → Array Nat → Option (Array Nat)
  | 0, state, other, bits, weights =>
    if bits.isSpent && state = 0 && other = 0 then some weights else none
  | fuel + 1, state, other, bits, weights =>
    if bits.overdrawn ≠ 0 then none
    else if bits.isSpent && (isEven || state = 0) then
      if state = 0 && other = 0 then some weights else none
    else
      let (next, rest) := table.next state bits
      restingWeights table isEven fuel other next rest (weights.push (table.cell state).symbol)

def earlyCodedWeights? (version : EarlyVersion) (bytes : ByteArray) : Option (Array Nat) :=
  match Distribution.earlyOfBytes? 255 12 bytes with
  | none => none
  | some (distribution, size) =>
    match BackwardBits.ofBytes? (bytes.extract size bytes.size) with
    | none => none
    | some bits =>
      let table := distribution.table
      let (first, bits) := table.start bits
      let (second, bits) := table.start bits
      match version with
      | .four | .five => restingWeights table distribution.isEven 255 first second bits #[]
      | _ => chainedWeights table 254 first second bits #[]

/-- How many weights of one there are, by the form of a header from 242 on. -/
def alikeCounts : Array Nat := #[1, 2, 3, 4, 7, 8, 15, 16, 31, 32, 63, 64, 127, 128]

def firstAlike : Nat := 242

def earlyWeights? (version : EarlyVersion) (bytes : ByteArray) : Option (Array Nat × Nat) :=
  let head := (Bytes.byteAt bytes 0).toNat
  if 128 ≤ head then
    if head < firstAlike then weights? bytes
    else some (Array.replicate (alikeCounts[head - firstAlike]?.getD 0) 1, 1)
  else if bytes.size < head + 1 then none
  else (earlyCodedWeights? version (Bytes.slice bytes 1 head)).map (·, head + 1)

def earlyOfBytes? (version : EarlyVersion) (bytes : ByteArray) : Option (HuffmanTable × Nat) :=
  match earlyWeights? version bytes with
  | none => none
  | some (weights, size) => (ofWeights? weights).map (·, size)

end HuffmanTable

namespace DecodingTime

def earlySingles : Array DecodingTime :=
  #[⟨0, 0⟩, ⟨0, 0⟩, ⟨38, 130⟩, ⟨448, 128⟩, ⟨556, 128⟩, ⟨714, 128⟩, ⟨883, 128⟩, ⟨897, 128⟩,
    ⟨926, 128⟩, ⟨947, 128⟩, ⟨1107, 128⟩, ⟨1177, 128⟩, ⟨1242, 128⟩, ⟨1349, 128⟩, ⟨1455, 128⟩,
    ⟨722, 128⟩]

def earlyPairs : Array DecodingTime :=
  #[⟨1, 1⟩, ⟨1, 1⟩, ⟨1313, 74⟩, ⟨1353, 74⟩, ⟨1353, 74⟩, ⟨1418, 74⟩, ⟨1437, 74⟩, ⟨1515, 75⟩,
    ⟨1613, 75⟩, ⟨1729, 77⟩, ⟨2083, 81⟩, ⟨2379, 87⟩, ⟨2415, 93⟩, ⟨2644, 106⟩, ⟨2422, 124⟩,
    ⟨1891, 145⟩]

def earlyPairsPay (version : EarlyVersion) (count size : Nat) : Bool :=
  let share := 16 * size / max 1 count
  let single := (earlySingles[share]?.map fun time => time.total count).getD 0
  let paired := (earlyPairs[share]?.map fun time => time.total count).getD 0
  paired + paired / (if version = .seven then 8 else 16) < single

end DecodingTime

namespace HuffmanDecoder

def decodeFourInTurn? (decoder : HuffmanDecoder) (count : Nat) (bytes : ByteArray) :
    Option ByteArray :=
  match parts? count bytes with
  | none => none
  | some parts => decodeParts? decoder bytes parts

end HuffmanDecoder

namespace EarlyLiterals

def bigEndian (bytes : ByteArray) (count : Nat) : Nat :=
  (List.range count).foldl (fun number index => 256 * number + (Bytes.byteAt bytes index).toNat) 0

def form (block : ByteArray) : Nat := (Bytes.byteAt block 0).toNat / 16 % 4

def plainHeader (block : ByteArray) : Nat × Nat :=
  match form block with
  | 2 => (2, bigEndian block 2 % 2 ^ 12)
  | 3 => (3, bigEndian block 3 % 2 ^ 20)
  | _ => (1, bigEndian block 1 % 2 ^ 5)

def codedHeader (block : ByteArray) : Nat × Nat × Nat :=
  let sized (head bits : Nat) : Nat × Nat × Nat :=
    let number := bigEndian block head
    (head, number / 2 ^ bits % 2 ^ bits, number % 2 ^ bits)
  match form block with
  | 2 => sized 4 14
  | 3 => sized 5 18
  | _ => sized 3 10

/-- The bytes of a section with a table of its own; a single stream, or four. In version 5 a single
stream must be shorter than what it yields. -/
def decodeCoded? (version : EarlyVersion) (single : Bool) (count : Nat) (coded : ByteArray) :
    Option (HuffmanDecoder × ByteArray) :=
  let size := coded.size
  match HuffmanTable.earlyOfBytes? version coded with
  | none => none
  | some (table, tableSize) =>
    let streams := coded.extract tableSize size
    let paired := !single && DecodingTime.earlyPairsPay version count size
    let decoder : HuffmanDecoder := ⟨table, paired, HuffmanTable.maxLog⟩
    let bytes :=
      if !single then decoder.decodeFourInTurn? count streams
      else if version = .five && count ≤ streams.size then none
      else decoder.decodeStream? count streams ByteArray.empty
    bytes.map (decoder, ·)

/-- Literals that are coded in as many bytes as there are, or in a single byte, where the version
allows it. -/
def uncoded? (version : EarlyVersion) (count : Nat) (coded : ByteArray) : Option ByteArray :=
  if coded.size = count && version = .six then some coded
  else if coded.size = 1 && version ≠ .seven then
    some ⟨Array.replicate count (Bytes.byteAt coded 0)⟩
  else none

/-- What stands behind the literals: more of the block, or more of the repeated byte, or zeros. -/
def behind (literals : Literals) (block : ByteArray) : ByteArray :=
  let kind := (Bytes.byteAt block 0).toNat / 64
  if kind = 2 && literals.size + 8 ≤ block.size then
    block.extract literals.size (literals.size + 8)
  else
    ⟨Array.replicate 8 (if kind = 3 then Bytes.byteAt block (literals.size - 1) else 0)⟩

def ofBlock? (version : EarlyVersion) (previous : Option HuffmanDecoder) (block : ByteArray) :
    Option Literals :=
  if block.size < 3 then none
  else match (Bytes.byteAt block 0).toNat / 64 with
    | 0 =>
      let (head, count, size) := codedHeader block
      if block.size < 5 || maxBlockSize < count || block.size < head + size then none
      else
        let coded := Bytes.slice block head size
        let single := form block = 1
        if !single && (count = 0 || count ≤ size || size = 1) then
          if count = 0 || count < size then none
          else (uncoded? version count coded).map (⟨·, previous, head + size, false⟩)
        else
          (decodeCoded? version single count coded).map fun (decoder, bytes) =>
            ⟨bytes, some decoder, head + size, false⟩
    | 1 =>
      let (head, count, size) := codedHeader block
      if form block ≠ 1 || version ≠ .seven || block.size < head + size then none
      else match previous with
        | none => none
        | some decoder =>
          if decoder.paired then
            (decoder.decodeStream? count (Bytes.slice block head size) ByteArray.empty).map
              (⟨·, previous, head + size, false⟩)
          else none
    | 2 =>
      let (head, count) := plainHeader block
      if block.size < head + count then none
      else some ⟨Bytes.slice block head count, previous, head + count, false⟩
    | _ =>
      let (head, count) := plainHeader block
      if maxBlockSize < count || block.size < head + 1 then none
      else some ⟨⟨Array.replicate count (Bytes.byteAt block head)⟩, previous, head + 1, false⟩

end EarlyLiterals

end ClassicZip.Codec.Zstd
