import ClassicZip.Codec.Zstd.Fse

/-!
# Huffman tables of literals

A table is described by the weight of each byte value. A word of weight `w` takes `2 ^ (w - 1)` of
the `2 ^ log` places, so that a look-up by the next `log` bits finds the byte and the word's
length. The last weight is not written: it fills the table up.
-/

namespace ClassicZip.Codec.Zstd

structure HuffmanCell where
  byte : UInt8
  bits : Nat
  deriving Inhabited

structure HuffmanTable where
  log : Nat
  cells : Array HuffmanCell

namespace HuffmanTable

def maxLog : Nat := 12

/-- Weights in two interleaved chains of states, until the stream is read past its front;
`fuel` bounds them. -/
def chainedWeights (table : FseTable) : Nat → Nat → Nat → BackwardBits → Array Nat →
    Option (Array Nat)
  | 0, _, _, _, _ => none
  | fuel + 1, state, other, bits, weights =>
    let weights := weights.push (table.cell state).symbol
    let (next, rest) := table.next state bits
    if rest.overdrawn ≠ 0 then some (weights.push (table.cell other).symbol)
    else chainedWeights table fuel other next rest weights

def maxWeightLog : Nat := 6

/-- How many shares there is room for beside their table: a smaller table leaves room for more. -/
def maxShares (log : Nat) : Nat := if log < maxWeightLog then 92 else 12

def codedWeights? (bytes : ByteArray) : Option (Array Nat) :=
  match Distribution.ofBytes? 255 maxWeightLog bytes with
  | none => none
  | some (distribution, size) =>
    match BackwardBits.ofBytes? (bytes.extract size bytes.size) with
    | none => none
    | some bits =>
      if maxShares distribution.log < distribution.shares.size then none else
      let table := distribution.table
      let (first, bits) := table.start bits
      let (second, bits) := table.start bits
      if bits.overdrawn ≠ 0 then none else chainedWeights table 254 first second bits #[]

def plainWeights (bytes : ByteArray) (count : Nat) : Array Nat :=
  (Array.range count).map fun index =>
    let byte := (Bytes.byteAt bytes (index / 2)).toNat
    if index % 2 = 0 then byte / 16 else byte % 16

def weights? (bytes : ByteArray) : Option (Array Nat × Nat) :=
  if bytes.size = 0 then none
  else
    let head := (Bytes.byteAt bytes 0).toNat
    if 128 ≤ head then
      let count := head - 127
      let size := (count + 1) / 2
      if bytes.size < size + 1 then none
      else some (plainWeights (Bytes.slice bytes 1 size) count, size + 1)
    else if bytes.size < head + 1 then none
    else match codedWeights? (Bytes.slice bytes 1 head) with
      | none => none
      | some weights => some (weights, head + 1)

def cellsOfWeight (weights : Array Nat) (log weight : Nat) : Array HuffmanCell :=
  (Array.range weights.size).foldl
    (fun cells byte =>
      if weights[byte]? == some weight then
        cells ++ Array.replicate (2 ^ (weight - 1)) ⟨byte.toUInt8, log + 1 - weight⟩
      else cells)
    #[]

/-- The table of written weights, which must leave a whole power of two to the last one and have
words of least weight in pairs. -/
def ofWeights? (written : Array Nat) : Option HuffmanTable :=
  let total := written.foldl (fun total weight => total + 2 ^ weight / 2) 0
  let log := total.log2 + 1
  let rest := 2 ^ log - total
  let weights := written.push (rest.log2 + 1)
  let least := weights.foldl (fun count weight => if weight = 1 then count + 1 else count) 0
  if total = 0 || maxLog < log || 2 ^ rest.log2 ≠ rest || written.any (maxLog < ·) ||
      256 < weights.size || least < 2 || least % 2 = 1 then none
  else some ⟨log, (List.range log).foldl
    (fun cells weight => cells ++ cellsOfWeight weights log (weight + 1)) #[]⟩

def ofBytes? (bytes : ByteArray) : Option (HuffmanTable × Nat) :=
  match weights? bytes with
  | none => none
  | some (weights, size) =>
    match ofWeights? weights with
    | none => none
    | some table => some (table, size)

end HuffmanTable

end ClassicZip.Codec.Zstd
