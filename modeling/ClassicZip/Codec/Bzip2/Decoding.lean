import ClassicZip.Codec.Bzip2.Randomised
import ClassicZip.Codec.Decoder
import ClassicZip.Codec.PrefixCode
import ClassicZip.Crc32

/-!
# Decoding bzip2 streams

A block holds the last column of the sorted rotations of its bytes, coded by recency and prefix
codes. Following the links of the column gives the bytes back; four equal ones are followed by a
count of more. A step of the decoder takes the stream header, a whole block off the input, or one
run off the block at hand. Only the first stream counts; what follows it is ignored. Bytes are
handed out one by one, so a batch ends with the byte that is one too many.
-/

namespace ClassicZip.Codec.Bzip2

def chunkSize : Nat := 8192

def groupSize : Nat := 50

def maxSelectors : Nat := 18002

def maxLength : Nat := 20

def moveToFront? {α : Type} (items : List α) (place : Nat) : Option (α × List α) :=
  match items[place]? with
  | none => none
  | some item => some (item, item :: items.eraseIdx place)

/-- The bytes that occur in a block: sixteen ranges, then the members of each. -/
def usedBytes : BitReader (List UInt8) := do
  let ranges ← (List.range 16).filterM fun _ => .flag
  ranges.foldlM
    (fun used range => do
      let members ← (List.range 16).filterM fun _ => .flag
      return used ++ members.map fun member => (16 * range + member).toUInt8)
    []

def selectors (tableCount : Nat) : Nat → List Nat → Array Nat → BitReader (Array Nat)
  | 0, _, chosen => return chosen
  | count + 1, recent, chosen => do
    let place ← BitReader.unary tableCount
    let (table, recent) ← BitReader.ofOption (moveToFront? recent place)
    selectors tableCount count recent (chosen.push table)

/-- A word length, as the change from the one before; `fuel` bounds the changes. -/
def nextLength : Nat → Nat → BitReader Nat
  | 0, _ => .fail
  | fuel + 1, length => do
    BitReader.require (1 ≤ length && length ≤ maxLength)
    if ← .flag then
      if ← .flag then nextLength fuel (length - 1) else nextLength fuel (length + 1)
    else return length

def wordLengths : Nat → Nat → Array Nat → BitReader (Array Nat)
  | 0, _, lengths => return lengths
  | count + 1, length, lengths => do
    let length ← nextLength ((← .left) + 1) length
    wordLengths count length (lengths.push length)

def table (symbolCount : Nat) : BitReader PrefixCode := do
  let first ← .number 5
  return PrefixCode.ofLengths maxLength (← wordLengths symbolCount first #[])

/-- The last column as far as it is decoded, and a run of its most recent byte that still grows:
`digit` is the worth of the run's next digit. -/
structure Column where
  recent : List UInt8
  bytes : ByteArray
  run : Nat
  digit : Nat

namespace Column

def flush? (column : Column) (capacity : Nat) : Option Column :=
  if column.run = 0 then some { column with digit := 1 }
  else if capacity < column.bytes.size + column.run then none
  else match column.recent with
    | [] => none
    | byte :: _ => some {
        column with
        bytes := column.bytes ++ ⟨Array.replicate column.run byte⟩
        run := 0
        digit := 1 }

/-- A digit of the run's length: 1 or 2 times its worth. -/
def addDigit? (column : Column) (digit : Nat) : Option Column :=
  if 2097152 ≤ column.digit then none
  else some { column with
    run := column.run + digit * column.digit
    digit := 2 * column.digit }

def addByte? (column : Column) (capacity place : Nat) : Option Column :=
  match column.flush? capacity with
  | none => none
  | some flushed =>
    if capacity ≤ flushed.bytes.size then none
    else match moveToFront? flushed.recent place with
      | none => none
      | some (byte, recent) =>
        some { flushed with recent := recent, bytes := flushed.bytes.push byte }

end Column

/-- The last column of a block: symbols 0 and 1 are digits of a run, `last` ends the block, and
the others name bytes by recency. `fuel` bounds the symbols. -/
def columnBytes (tables : Array PrefixCode) (chosen : Array Nat) (capacity last : Nat) :
    Nat → Nat → Column → BitReader ByteArray
  | 0, _, _ => .fail
  | fuel + 1, symbolsRead, column => do
    let tableNumber ← BitReader.ofOption chosen[symbolsRead / groupSize]?
    let code ← BitReader.ofOption tables[tableNumber]?
    let symbol ← code.symbol
    if symbol = last then
      return (← BitReader.ofOption (column.flush? capacity)).bytes
    else if symbol < 2 then
      let column ← BitReader.ofOption (column.addDigit? (symbol + 1))
      columnBytes tables chosen capacity last fuel (symbolsRead + 1) column
    else
      let column ← BitReader.ofOption (column.addByte? capacity (symbol - 1))
      columnBytes tables chosen capacity last fuel (symbolsRead + 1) column

structure Block where
  checksum : UInt32
  randomised : Bool
  origin : Nat
  column : ByteArray

def block (capacity : Nat) : BitReader Block := do
  let checksum ← .number 32
  let randomised ← .flag
  let origin ← .number 24
  BitReader.require (origin ≤ capacity + 10)
  let used ← usedBytes
  BitReader.require (!used.isEmpty)
  let symbolCount := used.length + 2
  let tableCount ← .number 3
  BitReader.require (2 ≤ tableCount && tableCount ≤ 6)
  let selectorCount ← .number 15
  BitReader.require (1 ≤ selectorCount)
  let chosen ← selectors tableCount selectorCount (List.range tableCount) #[]
  let tables ← (List.range tableCount).foldlM
    (fun tables _ => do return tables.push (← table symbolCount)) #[]
  let column ← columnBytes tables (chosen.extract 0 maxSelectors) capacity (symbolCount - 1)
    ((← .left) + 1) 0 ⟨used, ByteArray.empty, 0, 1⟩
  BitReader.require (origin < column.size)
  return ⟨checksum.toUInt32, randomised, origin, column⟩

/-- What follows a stream header or a block. -/
inductive Section
  | block (block : Block)
  /-- The end, with the checksum over all blocks. -/
  | finish (checksum : Nat)

def expect (bytes : List Nat) : BitReader Unit :=
  bytes.forM fun byte => do BitReader.require ((← .number 8) == byte)

def sectionAfter (capacity lead : Nat) : BitReader Section := do
  if lead = 0x31 then
    expect [0x41, 0x59, 0x26, 0x53, 0x59]
    return .block (← block capacity)
  else
    BitReader.require (lead == 0x17)
    expect [0x72, 0x45, 0x38, 0x50, 0x90]
    return .finish (← .number 32)

/-- How many bytes of a column are less than each byte value. -/
def startsOf (column : ByteArray) : Array Nat :=
  let counts := column.foldl
    (fun counts byte => counts.modify byte.toNat (· + 1)) (Array.replicate 256 0)
  (counts.foldl (fun (starts, total) count => (starts.push total, total + count)) (#[], 0)).1

/-- For each row of the sorted rotations, the row that is rotated by one more byte. -/
def linksOf (column : ByteArray) : Array Nat :=
  let linked := (List.range column.size).foldl
    (fun (links, starts) row =>
      let byte := (Bytes.byteAt column row).toNat
      let place := starts[byte]?.getD 0
      (links.setIfInBounds place row, starts.setIfInBounds byte (place + 1)))
    (Array.replicate column.size 0, startsOf column)
  linked.1

/-- A block on its way out: the next row, how many bytes have been taken, and the byte that starts
the next run. -/
structure Emission where
  column : ByteArray
  links : Array Nat
  row : Nat
  flips : Option Flips
  taken : Nat
  lead : UInt8
  register : UInt32
  checksum : UInt32

namespace Emission

/-- Takes the next byte of the block; behind the last one the block starts again. -/
def takeByte (state : Emission) : UInt8 × Emission :=
  let byte := Bytes.byteAt state.column state.row
  let row := state.links[state.row]?.getD 0
  match state.flips with
  | none => (byte, { state with row := row, taken := state.taken + 1 })
  | some flips =>
    let flipped := flips.apply byte
    (flipped.1, { state with row := row, flips := some flipped.2, taken := state.taken + 1 })

def ofBlock (block : Block) : Emission :=
  let links := linksOf block.column
  let first := takeByte {
    column := block.column
    links := links
    row := links[block.origin]?.getD 0
    flips := if block.randomised then some Flips.start else none
    taken := 0
    lead := 0
    register := Checksum.initial
    checksum := block.checksum }
  { first.2 with lead := first.1 }

def isDone (state : Emission) : Bool := state.taken == state.column.size + 1

/-- The length of the run that the lead starts, found by taking at most `more` equal bytes; after
four the next byte counts the rest. -/
def takeRun : Nat → Nat → Emission → Nat × Emission
  | 0, length, state =>
    let (count, counted) := state.takeByte
    let (lead, next) := counted.takeByte
    (length + count.toNat, { next with lead := lead })
  | more + 1, length, state =>
    let (byte, next) := state.takeByte
    if next.isDone then (length, next)
    else if byte = state.lead then takeRun more (length + 1) next
    else (length, { next with lead := byte })

@[simp] theorem taken_takeByte (state : Emission) : state.takeByte.2.taken = state.taken + 1 := by
  unfold takeByte
  split <;> rfl

@[simp] theorem column_takeByte (state : Emission) : state.takeByte.2.column = state.column := by
  unfold takeByte
  split <;> rfl

theorem takeRun_progress (more length : Nat) (state : Emission) :
    (takeRun more length state).2.column = state.column ∧
      state.taken < (takeRun more length state).2.taken := by
  induction more generalizing length state with
  | zero =>
    refine ⟨?_, ?_⟩
    · simp only [takeRun, column_takeByte]
    · simp only [takeRun, taken_takeByte]
      omega
  | succ more ih =>
    simp only [takeRun]
    split
    · simp
    · split
      · have := ih (length + 1) state.takeByte.2
        simp at this
        exact ⟨this.1, by omega⟩
      · simp

/-- The bytes still to be taken, with one to spare for leaving the block. -/
def pending (state : Emission) : Nat := state.column.size + 2 - state.taken

end Emission

inductive Phase
  | header
  /-- Between blocks of at most `capacity` bytes. -/
  | boundary (capacity : Nat) (checksum : UInt32)
  | block (capacity : Nat) (checksum : UInt32) (emission : Emission)
  | done

structure Expanding where
  bits : Bits
  output : ByteArray
  phase : Phase

namespace Expanding

def start (stored : ByteArray) : Expanding := ⟨⟨.highFirst, stored, 0⟩, ByteArray.empty, .header⟩

def pushRun (output : ByteArray) (register : UInt32) (byte : UInt8) :
    Nat → ByteArray × UInt32
  | 0 => (output, register)
  | count + 1 => pushRun (output.push byte) (Checksum.step register byte) byte count

def stepHeader (state : Expanding) : Step Expanding :=
  match state.bits.take? 32 with
  | none => .refused .short
  | some (magic, bits) =>
    let size := magic % 256
    if magic / 256 = 0x425A68 ∧ 0x31 ≤ size ∧ size ≤ 0x39 then
      .more { state with bits := bits, phase := .boundary ((size - 0x30) * 100000) 0 }
    else .refused .corrupt

def stepBoundary (state : Expanding) (capacity : Nat) (checksum : UInt32) : Step Expanding :=
  match state.bits.take? 8 with
  | none => .refused .short
  | some (lead, bits) =>
    match (sectionAfter capacity lead).read bits with
    | .error cause => .refused cause
    | .ok (.block block, rest) =>
      .more { state with bits := rest, phase := .block capacity checksum (.ofBlock block) }
    | .ok (.finish stored, rest) =>
      if stored = checksum.toNat then .more { state with bits := rest, phase := .done }
      else .refused .corrupt

/-- One run, or the end of the block. A run that went past the end is wrong; where bytes are
flipped the block only counts as cut short, which nobody notices who wants no more of it. -/
def stepBlock (state : Expanding) (capacity : Nat) (checksum : UInt32) (emission : Emission) :
    Step Expanding :=
  if emission.isDone then
    if Checksum.ofRegister emission.register = emission.checksum then
      .more { state with
        phase := .boundary capacity (Checksum.combine checksum emission.checksum) }
    else .refused .corrupt
  else if emission.column.size + 1 < emission.taken then
    .refused (if emission.flips.isSome then .short else .corrupt)
  else
    let (length, next) := Emission.takeRun 3 1 emission
    let (output, register) := pushRun state.output emission.register emission.lead length
    .more { state with
      output := output
      phase := .block capacity checksum { next with register := register } }

def step (state : Expanding) : Step Expanding :=
  match state.phase with
  | .header => state.stepHeader
  | .boundary capacity checksum => state.stepBoundary capacity checksum
  | .block capacity checksum emission => state.stepBlock capacity checksum emission
  | .done => .finished state.output

def left (state : Expanding) : Nat × Nat :=
  (state.bits.left,
    match state.phase with
    | .block _ _ emission => emission.pending
    | _ => 0)

theorem left_step {state next : Expanding} (h : state.step = .more next) :
    Prod.Lex (· < ·) (· < ·) next.left state.left := by
  unfold step at h
  split at h
  · unfold stepHeader at h
    split at h
    · simp at h
    · rename_i ht
      have := Bits.left_of_take? ht
      dsimp only at h
      split at h
      · cases h
        exact .left _ _ (by dsimp only; omega)
      · simp at h
  · unfold stepBoundary at h
    split at h
    · simp at h
    · rename_i ht
      have := Bits.left_of_take? ht
      split at h
      · simp at h
      · rename_i rest _
        have := rest.property
        cases h
        exact .left _ _ (by dsimp only; omega)
      · rename_i rest _
        have := rest.property
        split at h
        · cases h
          exact .left _ _ (by dsimp only; omega)
        · simp at h
  · rename_i capacity checksum emission hp
    unfold stepBlock at h
    split at h
    · rename_i hd
      simp only [Emission.isDone, beq_iff_eq] at hd
      split at h
      · cases h
        refine Prod.lex_def.2 (.inr ⟨rfl, ?_⟩)
        simp only [left, hp, Emission.pending]
        omega
      · simp at h
    · rename_i hd
      simp only [Emission.isDone, beq_iff_eq] at hd
      split at h
      · simp at h
      · have hrun := Emission.takeRun_progress 3 1 emission
        generalize Emission.takeRun 3 1 emission = run at h hrun
        cases h
        refine Prod.lex_def.2 (.inr ⟨rfl, ?_⟩)
        simp only [left, hp, Emission.pending, hrun.1]
        omega
  · simp at h

end Expanding

def decoder : Decoder where
  State := Expanding
  start := Expanding.start
  output := Expanding.output
  left := Expanding.left
  step := Expanding.step
  left_step := fun _ _ => Expanding.left_step
  batch := fun limit => limit + 1
  atHand := fun state => { state with bits := state.bits.confine chunkSize }

end ClassicZip.Codec.Bzip2
