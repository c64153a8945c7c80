import ClassicZip.Codec.Zstd.Early.Literals
import ClassicZip.Codec.Zstd.Sequences

/-!
# Sequences of the early versions

Versions 6 and 7 have the tables and codes of the present version, but number the modes of tables
otherwise and use the last offsets otherwise. In version 5 a code is a length itself; lengths that
are too large for their code go on in bytes of their own.
-/

namespace ClassicZip.Codec.Zstd

def TableRules.early : TableRules where
  mode
    | 0 => .standard
    | 1 => .constant
    | 2 => .repeated
    | _ => .own
  maxOffsetCode := 28
  distribution := Distribution.earlyOfBytes?

/-- The offset that `value` stands for. Without literals the latest offset and the one before it
change places. -/
def Offsets.earlyPick (offsets : Offsets) (value : Nat) (noLiterals : Bool) : Nat × Offsets :=
  let swapped := noLiterals && value < 3
  offsets.pick (if swapped then 3 - value else value) false

def Strides.early (leastRest : Nat) : Strides where
  literals := narrow
  matched _ length := 8 + narrow (length - 8)
  leastRest := leastRest

/-- Offset codes above 26 are not used in version 6, and stand for small values. -/
def SequenceRules.six : SequenceRules :=
  ⟨fun code => if 26 < code then 2 else 2 ^ code, Offsets.earlyPick, 8, .early 3⟩

def SequenceRules.seven : SequenceRules := ⟨(2 ^ ·), Offsets.earlyPick, 8, .early 3⟩

/-- The last offsets at the start of each block before version 7. -/
def Offsets.earlyStart : Offsets := ⟨1, 1, 1⟩

structure FiveSequences where
  count : Nat
  tables : SequenceTables
  /-- Where the bytes of long lengths start and stop. -/
  longStart : Nat
  longStop : Nat
  /-- Where the bits start. -/
  bitsStart : Nat

namespace FiveSequences

def plainTable (log : Nat) : FseTable :=
  ⟨log, (Array.range (2 ^ log)).map fun code => ⟨code, log, 0⟩⟩

structure CodeKind where
  bits : Nat
  maxLog : Nat

def literalKind : CodeKind := ⟨6, 10⟩

def offsetKind : CodeKind := ⟨5, 9⟩

def matchKind : CodeKind := ⟨7, 10⟩

/-- A table at `start`, and where it ends. A constant code must have `spare` bytes from itself
on. -/
def table? (kind : CodeKind) (mode spare : Nat) (part : ByteArray) (start : Nat) :
    Option (FseTable × Nat) :=
  match TableRules.early.mode mode with
  | .standard => some (plainTable kind.bits, start)
  | .constant =>
    if part.size < start + spare then none
    else some (.constant (Bytes.byteAt part start).toNat, start + 1)
  | .own =>
    (Distribution.earlyOfBytes? (2 ^ kind.bits - 1) kind.maxLog
      (part.extract start part.size)).map fun (distribution, size) =>
        (distribution.table, start + size)
  | .repeated => none

def count? (part : ByteArray) : Option (Nat × Nat) :=
  let first := (Bytes.byteAt part 0).toNat
  if part.size = 0 then none
  else if first < 128 then some (first, 1)
  else if part.size < 2 then none
  else some ((first - 128) * 256 + (Bytes.byteAt part 1).toNat, 2)

/-- Where the bytes of long lengths start and stop, from the modes on. -/
def longBytes? (part : ByteArray) (start : Nat) : Option (Nat × Nat) :=
  let modes := (Bytes.byteAt part start).toNat
  let next := (Bytes.byteAt part (start + 1)).toNat
  let (first, length) :=
    if modes / 2 % 2 = 1 then (start + 3, next * 256 + (Bytes.byteAt part (start + 2)).toNat)
    else (start + 2, modes % 2 * 256 + next)
  if part.size < first || part.size < first + length + 3 then none
  else some (first, first + length)

def read? (part : ByteArray) (count start : Nat) : Option FiveSequences :=
  let modes := (Bytes.byteAt part start).toNat
  match longBytes? part start with
  | none => none
  | some (longStart, longStop) =>
    match table? literalKind (modes / 64) 1 part longStop with
    | none => none
    | some (literalLengths, next) =>
      match table? offsetKind (modes / 16 % 4) 2 part next with
      | none => none
      | some (offsets, next) =>
        let codes := offsets.cells.map fun cell => { cell with symbol := cell.symbol % 32 }
        match table? matchKind (modes / 4 % 4) 2 part next with
        | none => none
        | some (matchLengths, next) =>
          some ⟨count, ⟨literalLengths, ⟨offsets.log, codes⟩, matchLengths⟩, longStart, longStop,
            next⟩

/-- The length of a code that may go on in the bytes from `index` on, and the index behind them. -/
def longLength (part : ByteArray) (stop code index : Nat) : Nat × Nat :=
  let add := (Bytes.byteAt part index).toNat
  let index := index + 1
  let (length, index) :=
    if add < 255 then (code + add, index)
    else if stop < index + 2 then (code, index)
    else
      let value := (Bytes.u16At part index).toNat
      let index := index + 2
      if value % 2 = 1 && index < stop then
        ((value + (Bytes.byteAt part index).toNat * 2 ^ 16) / 2, index + 1)
      else (value / 2, index)
  (length, min index (stop - 1))

/-- Where the decoding stands: the states, the bits, the last two offsets, the place in the bytes of
long lengths, the literals used so far, the history and the output. -/
structure State where
  literalState : Nat
  offsetState : Nat
  matchState : Nat
  bits : BackwardBits
  offset : Nat
  previous : Nat
  longIndex : Nat
  literalsUsed : Nat
  history : History
  output : ByteArray

def State.start (sequences : FiveSequences) (bits : BackwardBits) (history : History)
    (output : ByteArray) : State :=
  let (literalState, bits) := sequences.tables.literalLengths.start bits
  let (offsetState, bits) := sequences.tables.offsets.start bits
  let (matchState, bits) := sequences.tables.matchLengths.start bits
  ⟨literalState, offsetState, matchState, bits, 1, 1, sequences.longStart, 0, history, output⟩

def offsetSpan (code : Nat) : CodeSpan :=
  ⟨if code = 0 || 26 < code then 1 else 2 ^ (code - 1), code - 1⟩

def run? (sequences : FiveSequences) (part : ByteArray) (literals : LiteralSource) (limit : Nat) :
    Nat → State → Option State
  | 0, state => some state
  | count + 1,
    ⟨literalState, offsetState, matchState, bits, last, previous, index, used, history, output⟩ =>
    let isOverdrawn := bits.overdrawn != 0
    let tables := sequences.tables
    let stop := sequences.longStop
    let code := (tables.literalLengths.cell literalState).symbol
    let repeated := if code = 0 then previous else last
    let (literalLength, index) :=
      if code = 63 then longLength part stop code index else (code, index)
    let offsetCode := (tables.offsets.cell offsetState).symbol
    let span := offsetSpan offsetCode
    let (low, bits) := bits.take span.extraBits
    let offset := if offsetCode = 0 then repeated else span.base + low
    let previous := if offsetCode ≠ 0 || literalLength = 0 then last else previous
    let (offsetState, bits) := tables.offsets.next offsetState bits
    let (literalState, bits) := tables.literalLengths.next literalState bits
    let matchCode := (tables.matchLengths.cell matchState).symbol
    let (matchState, bits) := tables.matchLengths.next matchState bits
    let (matchLength, index) :=
      if matchCode ≠ 127 then (matchCode, index)
      else if stop ≤ index then (matchCode, stop - 1)
      else longLength part stop matchCode index
    let matchLength := matchLength + 4
    let next := used + literalLength
    let produced := output.size + literalLength
    if isOverdrawn || literals.count < next || limit < produced + 8 ||
        !history.reaches produced offset || limit < produced + matchLength then none
    else
      let (output, history) := history.copyLiterals (.early 4) literals.source used next output
      let (output, history) := history.copyMatch (.early 4) output offset matchLength
      run? sequences part literals limit count
        ⟨literalState, offsetState, matchState, bits, offset, previous, index, next, history,
          output⟩

end FiveSequences

end ClassicZip.Codec.Zstd
