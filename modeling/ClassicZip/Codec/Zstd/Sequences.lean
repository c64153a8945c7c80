import ClassicZip.Codec.Zstd.Fse
import ClassicZip.Codec.Zstd.History

/-!
# Sequences

A sequence copies some literals and then a match: bytes that were put out before, at an offset
back from there. Lengths and offsets are codes with extra bits, drawn from three tables; the last
three offsets have codes of their own.
-/

namespace ClassicZip.Codec.Zstd

/-- A range of values that one code stands for. -/
structure CodeSpan where
  base : Nat
  extraBits : Nat
  deriving Inhabited

def codeSpans (base : Nat) (extraBits : List Nat) : Array CodeSpan :=
  (extraBits.foldl (fun (spans, base) bits => (spans.push ⟨base, bits⟩, base + 2 ^ bits))
    ((#[] : Array CodeSpan), base)).1

def literalSpans : Array CodeSpan :=
  codeSpans 0 (List.replicate 16 0 ++
    [1, 1, 1, 1, 2, 2, 3, 3, 4, 6, 7, 8, 9, 10, 11, 12, 13, 14, 15, 16])

def matchSpans : Array CodeSpan :=
  codeSpans 3 (List.replicate 32 0 ++
    [1, 1, 1, 1, 2, 2, 3, 3, 4, 4, 5, 7, 8, 9, 10, 11, 12, 13, 14, 15, 16])

def maxLiteralCode : Nat := 35

def maxMatchCode : Nat := 52

def defaultLiterals : FseTable :=
  (⟨6, #[4, 3, 2, 2, 2, 2, 2, 2, 2, 2, 2, 2, 2, 1, 1, 1, 2, 2, 2, 2, 2, 2, 2, 2, 2, 3, 2, 1, 1, 1,
    1, 1, -1, -1, -1, -1]⟩ : Distribution).table

def defaultOffsets : FseTable :=
  (⟨5, #[1, 1, 1, 1, 1, 1, 2, 2, 2, 1, 1, 1, 1, 1, 1, 1, 1, 1, 1, 1, 1, 1, 1, 1, -1, -1, -1, -1,
    -1]⟩ : Distribution).table

def defaultMatches : FseTable :=
  (⟨6, #[1, 4, 3, 2, 2, 2, 2, 2, 2, 1, 1, 1, 1, 1, 1, 1, 1, 1, 1, 1, 1, 1, 1, 1, 1, 1, 1, 1, 1, 1,
    1, 1, 1, 1, 1, 1, 1, 1, 1, 1, 1, 1, 1, 1, 1, 1, -1, -1, -1, -1, -1, -1, -1]⟩ :
    Distribution).table

structure SequenceTables where
  literalLengths : FseTable
  offsets : FseTable
  matchLengths : FseTable

/-- The last three offsets, the latest first. -/
structure Offsets where
  first : Nat
  second : Nat
  third : Nat

namespace Offsets

def start : Offsets := ⟨1, 4, 8⟩

/-- The offset that `value` stands for. Values above 3 are new offsets; the others pick an old
one, shifted by one place when no literals precede the match. -/
def pick (offsets : Offsets) (value : Nat) (noLiterals : Bool) : Nat × Offsets :=
  if 3 < value then (value - 3, ⟨value - 3, offsets.first, offsets.second⟩)
  else
    let place := if noLiterals then value + 1 else value
    if place ≤ 1 then (offsets.first, offsets)
    else if place = 2 then (offsets.second, ⟨offsets.second, offsets.first, offsets.third⟩)
    else if place = 3 then (offsets.third, ⟨offsets.third, offsets.first, offsets.second⟩)
    else (offsets.first - 1, ⟨offsets.first - 1, offsets.first, offsets.second⟩)

end Offsets

def sequenceCount? (part : ByteArray) : Option (Nat × Nat) :=
  let first := (Bytes.byteAt part 0).toNat
  if part.size = 0 then none
  else if first < 128 then some (first, 1)
  else if first < 255 then
    if part.size < 2 then none
    else some ((first - 128) * 256 + (Bytes.byteAt part 1).toNat, 2)
  else if part.size < 3 then none
  else some ((Bytes.u16At part 1).toNat + 0x7F00, 3)

inductive TableMode
  | standard
  | constant
  | own
  | repeated

/-- What a version of the format has of its own in how the tables are given. -/
structure TableRules where
  mode : Nat → TableMode
  maxOffsetCode : Nat
  /-- Reads a distribution, given the largest code and table size. -/
  distribution : Nat → Nat → ByteArray → Option (Distribution × Nat)

namespace TableRules

def present : TableRules where
  mode
    | 0 => .standard
    | 1 => .constant
    | 2 => .own
    | _ => .repeated
  maxOffsetCode := 31
  distribution := Distribution.ofBytes?

def table? (rules : TableRules) (mode : TableMode) (maxCode maxLog : Nat) (standard : FseTable)
    (previous : Option FseTable) (bytes : ByteArray) : Option (FseTable × Nat) :=
  match mode with
  | .standard => some (standard, 0)
  | .constant =>
    let code := (Bytes.byteAt bytes 0).toNat
    if bytes.size = 0 || maxCode < code then none else some (.constant code, 1)
  | .own =>
    (rules.distribution maxCode maxLog bytes).map
      fun (distribution, size) => (distribution.table, size)
  | .repeated => previous.map fun table => (table, 0)

def tables? (rules : TableRules) (previous : Option SequenceTables) (bytes : ByteArray) :
    Option (SequenceTables × Nat) :=
  let modes := (Bytes.byteAt bytes 0).toNat
  if bytes.size = 0 then none
  else
    match rules.table? (rules.mode (modes / 64)) maxLiteralCode 9 defaultLiterals
        (previous.map (·.literalLengths)) (bytes.extract 1 bytes.size) with
    | none => none
    | some (literalLengths, size1) =>
      match rules.table? (rules.mode (modes / 16 % 4)) rules.maxOffsetCode 8 defaultOffsets
          (previous.map (·.offsets)) (bytes.extract (1 + size1) bytes.size) with
      | none => none
      | some (offsets, size2) =>
        match rules.table? (rules.mode (modes / 4 % 4)) maxMatchCode 9 defaultMatches
            (previous.map (·.matchLengths)) (bytes.extract (1 + size1 + size2) bytes.size) with
        | none => none
        | some (matchLengths, size3) =>
          some (⟨literalLengths, offsets, matchLengths⟩, 1 + size1 + size2 + size3)

end TableRules

/-- The two lowest bits of the modes are reserved. -/
def sequenceTables? (previous : Option SequenceTables) (bytes : ByteArray) :
    Option (SequenceTables × Nat) :=
  if (Bytes.byteAt bytes 0).toNat % 4 ≠ 0 then none else TableRules.present.tables? previous bytes

/-- What a version of the format has of its own in the meaning of sequences. -/
structure SequenceRules where
  /-- The least offset value of a code. -/
  offsetBase : Nat → Nat
  /-- The offset that a value stands for, given whether literals precede the match. -/
  pick : Offsets → Nat → Bool → Nat × Offsets
  /-- The room that must be left behind the literals of a sequence. -/
  spare : Nat
  strides : Strides

def SequenceRules.present : SequenceRules := ⟨(2 ^ ·), Offsets.pick, 0, .present⟩

/-- Literals at the front of `source`, and what stands behind them. -/
structure LiteralSource where
  source : ByteArray
  count : Nat

def LiteralSource.rest (literals : LiteralSource) (used : Nat) : ByteArray :=
  literals.source.extract used literals.count

/-- Where the decoding of sequences stands: the three states, the bits, the offsets, the literals
used so far, the history and the output. -/
structure SequenceState where
  literalState : Nat
  offsetState : Nat
  matchState : Nat
  bits : BackwardBits
  offsets : Offsets
  literalsUsed : Nat
  history : History
  output : ByteArray

namespace SequenceState

def start (tables : SequenceTables) (bits : BackwardBits) (offsets : Offsets) (history : History)
    (output : ByteArray) : SequenceState :=
  let (literalState, bits) := tables.literalLengths.start bits
  let (offsetState, bits) := tables.offsets.start bits
  let (matchState, bits) := tables.matchLengths.start bits
  ⟨literalState, offsetState, matchState, bits, offsets, 0, history, output⟩

/-- Decodes and carries out `count` sequences, none of which starts past the front of the bits. A
match reaches back as far as the history does, and the output grows to `limit` bytes at most. -/
def run? (rules : SequenceRules) (tables : SequenceTables) (literals : LiteralSource)
    (limit : Nat) : Nat → SequenceState → Option SequenceState
  | 0, state => some state
  | count + 1,
    ⟨literalState, offsetState, matchState, bits, offsets, used, history, output⟩ =>
    let isOverdrawn := bits.overdrawn != 0
    let offsetCode := (tables.offsets.cell offsetState).symbol
    let literalSpan := literalSpans[(tables.literalLengths.cell literalState).symbol]?.getD default
    let matchSpan := matchSpans[(tables.matchLengths.cell matchState).symbol]?.getD default
    let (offsetLow, bits) := bits.take offsetCode
    let (matchLow, bits) := bits.take matchSpan.extraBits
    let (literalLow, bits) := bits.take literalSpan.extraBits
    let literalLength := literalSpan.base + literalLow
    let matchLength := matchSpan.base + matchLow
    let value := rules.offsetBase offsetCode + offsetLow
    let (offset, offsets) := rules.pick offsets value (literalSpan.base == 0)
    let stop := used + literalLength
    let produced := output.size + literalLength
    if isOverdrawn || literals.count < stop || limit < produced + rules.spare ||
        !history.reaches produced offset || limit < produced + matchLength then none
    else
      let (output, history) :=
        history.copyLiterals rules.strides literals.source used stop output
      let (output, history) := history.copyMatch rules.strides output offset matchLength
      if count = 0 then
        some ⟨literalState, offsetState, matchState, bits, offsets, stop, history, output⟩
      else
        let (literalState, bits) := tables.literalLengths.next literalState bits
        let (matchState, bits) := tables.matchLengths.next matchState bits
        let (offsetState, bits) := tables.offsets.next offsetState bits
        run? rules tables literals limit count
          ⟨literalState, offsetState, matchState, bits, offsets, stop, history, output⟩

end SequenceState

end ClassicZip.Codec.Zstd
