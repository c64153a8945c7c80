import ClassicZip.Codec.Decoder
import ClassicZip.Codec.Deflate.Tables

/-!
# Decoding deflate streams

Blocks are stored, coded with fixed tables, or coded with tables that the block brings. A step of
the decoder takes a block header, a piece of stored data, or one symbol. Bytes behind the final
block are ignored. The window starts out as zeros, so a match may reach before the first byte. The
decoder fills its window before it hands anything out, so a batch ends where the window is full.
-/

namespace ClassicZip.Codec.Deflate

def windowSize : Nat := 32768

def chunkSize : Nat := 32768

inductive Phase
  /-- Between blocks; `last` once the final block is done. -/
  | boundary (last : Bool)
  /-- Inside a stored block, with bytes still to come. -/
  | stored (last : Bool) (count : Nat)
  | coded (last : Bool) (literals distances : PrefixCode)

structure Inflation where
  bits : Bits
  output : ByteArray
  phase : Phase

/-- Repeats `length` bytes from `distance` back, which may run into the copy itself. -/
def copyBack (output : ByteArray) (distance : Nat) : Nat → ByteArray
  | 0 => output
  | length + 1 =>
    let byte := if distance ≤ output.size then Bytes.byteAt output (output.size - distance) else 0
    copyBack (output.push byte) distance length

def lengthLengths (count : Nat) : BitReader (Array Nat) :=
  (lengthOrder.take count).foldlM
    (fun lengths symbol => do return lengths.setIfInBounds symbol (← .number 3))
    (Array.replicate 19 0)

def lengthRun (lengths : Array Nat) (symbol : Nat) : BitReader (Array Nat) := do
  if symbol < 16 then
    return #[symbol]
  else if symbol = 16 then
    let previous ← BitReader.ofOption lengths.back?
    return Array.replicate (3 + (← .number 2)) previous
  else if symbol = 17 then
    return Array.replicate (3 + (← .number 3)) 0
  else
    return Array.replicate (11 + (← .number 7)) 0

/-- The word lengths of a block's two tables, `total` in all; `fuel` bounds the symbols read, each
of which adds at least one length. -/
def wordLengths (code : PrefixCode) (total : Nat) : Nat → Array Nat → BitReader (Array Nat)
  | 0, lengths => do
    BitReader.require (lengths.size == total)
    return lengths
  | fuel + 1, lengths => do
    if total ≤ lengths.size then
      BitReader.require (lengths.size == total)
      return lengths
    else
      let run ← lengthRun lengths (← code.symbol)
      wordLengths code total fuel (lengths ++ run)

/-- A table may leave words unused only if it has no word, or one of a single bit. -/
def tableOf? (lengths : Array Nat) : Option PrefixCode :=
  let code := PrefixCode.ofLengths maxLength lengths
  if code.isComplete || (code.symbols.size ≤ 1 && lengths.all (· ≤ 1)) then some code else none

def tables : BitReader (PrefixCode × PrefixCode) := do
  let literalCount := (← .number 5) + 257
  let distanceCount := (← .number 5) + 1
  let lengthCount := (← .number 4) + 4
  BitReader.require (literalCount ≤ 286 && distanceCount ≤ 30)
  let code := PrefixCode.ofLengths 7 (← lengthLengths lengthCount)
  BitReader.require code.isComplete
  let total := literalCount + distanceCount
  let lengths ← wordLengths code total total #[]
  let literals ← BitReader.ofOption (tableOf? (lengths.extract 0 literalCount))
  let distances ← BitReader.ofOption (tableOf? (lengths.extract literalCount total))
  return (literals, distances)

def spanValue (spans : Array Span) (symbol : Nat) : BitReader Nat := do
  let span ← BitReader.ofOption spans[symbol]?
  return span.base + (← .number span.extraBits)

def matchOf (distances : PrefixCode) (lengthSymbol : Nat) : BitReader (Nat × Nat) := do
  let length ← spanValue lengthSpans (lengthSymbol - 257)
  let distance ← spanValue distanceSpans (← distances.symbol)
  return (length, distance)

namespace Inflation

def start (stored : ByteArray) : Inflation :=
  ⟨⟨.lowFirst, stored, 0⟩, ByteArray.empty, .boundary false⟩

def storedPhase (last : Bool) (count : Nat) : Phase :=
  if count = 0 then .boundary last else .stored last count

def stepHeader (state : Inflation) : Step Inflation :=
  match state.bits.take? 3 with
  | none => .refused .short
  | some (header, bits) =>
    let last := header % 2 == 1
    if header / 2 = 0 then
      match bits.alignToByte.take? 32 with
      | none => .refused .short
      | some (lengths, rest) =>
        let count := lengths % 65536
        if count + lengths / 65536 = 65535 then
          .more { state with bits := rest, phase := storedPhase last count }
        else .refused .corrupt
    else if header / 2 = 1 then
      .more { state with bits := bits, phase := .coded last fixedLiterals fixedDistances }
    else if header / 2 = 2 then
      match tables.read bits with
      | .error cause => .refused cause
      | .ok ((literals, distances), rest) =>
        .more { state with bits := rest, phase := .coded last literals distances }
    else .refused .corrupt

def stepStored (state : Inflation) (last : Bool) (count : Nat) : Step Inflation :=
  let available := min count (state.bits.left / 8)
  if available = 0 then .refused .short
  else
    let position := state.bits.position
    .more {
      bits := state.bits.skip (8 * available)
      output := state.output ++ Bytes.slice state.bits.bytes (position / 8) available
      phase := storedPhase last (count - available) }

def stepSymbol (state : Inflation) (last : Bool) (literals distances : PrefixCode) :
    Step Inflation :=
  match literals.take state.bits with
  | .error cause => .refused cause
  | .ok (symbol, bits) =>
    if symbol < 256 then
      .more { state with bits := bits, output := state.output.push symbol.toUInt8 }
    else if symbol = endOfBlock then
      .more { state with bits := bits, phase := .boundary last }
    else match (matchOf distances symbol).read bits with
      | .error cause => .refused cause
      | .ok ((length, distance), rest) =>
        .more { state with bits := rest, output := copyBack state.output distance length }

def step (state : Inflation) : Step Inflation :=
  match state.phase with
  | .boundary true => .finished state.output
  | .boundary false => state.stepHeader
  | .stored last count => state.stepStored last count
  | .coded last literals distances => state.stepSymbol last literals distances

end Inflation

theorem Inflation.left_step {state next : Inflation} (h : state.step = .more next) :
    next.bits.left < state.bits.left := by
  unfold step at h
  split at h
  · simp at h
  · unfold stepHeader at h
    split at h
    · simp at h
    · rename_i header bits ht
      have := Bits.left_of_take? ht
      dsimp only at h
      split at h
      · split at h
        · simp at h
        · rename_i hs
          have := Bits.left_of_take? hs
          have := Bits.left_alignToByte_le bits
          split at h
          · cases h
            dsimp only
            omega
          · simp at h
      · split at h
        · cases h
          dsimp only
          omega
        · split at h
          · split at h
            · simp at h
            · rename_i rest _
              have := rest.property
              cases h
              dsimp only
              omega
          · simp at h
  · unfold stepStored at h
    dsimp only at h
    split at h
    · simp at h
    · cases h
      simp only [Bits.left, Bits.skip] at *
      omega
  · unfold stepSymbol at h
    split at h
    · simp at h
    · rename_i hs
      have := PrefixCode.left_of_take hs
      split at h
      · cases h
        assumption
      · split at h
        · cases h
          assumption
        · split at h
          · simp at h
          · rename_i rest _
            have := rest.property
            cases h
            dsimp only
            omega

def decoder : Decoder where
  State := Inflation
  start := Inflation.start
  output := Inflation.output
  left := fun state => (state.bits.left, 0)
  step := Inflation.step
  left_step := fun _ _ h => Prod.Lex.left _ _ (Inflation.left_step h)
  batch := fun limit => (limit / windowSize + 1) * windowSize
  atHand := fun state => { state with bits := state.bits.confine chunkSize }

end ClassicZip.Codec.Deflate
