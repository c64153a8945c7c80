import ClassicZip.Codec.Zstd.Early.Sequences

/-!
# Compressed blocks of the early versions

Neither the bits of the sequences nor what stands behind a block without sequences is looked at
further. Only version 7 hands anything on from block to block. Compressed blocks of version 4 are
refused.
-/

namespace ClassicZip.Codec.Zstd

structure EarlyBuffers where
  version : EarlyVersion
  input : Nat
  output : Nat

namespace EarlyBuffers

def fit (header : EarlyHeader) (previous : Option EarlyBuffers) : EarlyBuffers :=
  let shared := previous.filter (·.version = header.version)
  { version := header.version
    input := max header.blockSize ((shared.map (·.input)).getD 0)
    output := max header.outputSize ((shared.map (·.output)).getD 0) }

end EarlyBuffers

structure EarlyFrame where
  header : EarlyHeader
  buffers : EarlyBuffers
  /-- The size of the output in front of the frame. -/
  start : Nat
  history : History
  huffman : Option HuffmanDecoder
  tables : Option SequenceTables
  offsets : Offsets

namespace EarlyFrame

def ofHeader (header : EarlyHeader) (previous : Option EarlyBuffers) (size : Nat) : EarlyFrame :=
  ⟨header, .fit header previous, size, .start size, none, none, Offsets.start⟩

def finish? (literals : LiteralSource) (output : ByteArray) (used limit : Nat) :
    Option ByteArray :=
  let rest := literals.rest used
  if limit < output.size + rest.size then none else some (output ++ rest)

def runFive? (frame : EarlyFrame) (limit : Nat) (part : ByteArray) (literals : LiteralSource)
    (output : ByteArray) : Option (EarlyFrame × ByteArray) :=
  match FiveSequences.count? part with
  | none => none
  | some (0, _) => (finish? literals output 0 limit).map (frame, ·)
  | some (count, size) =>
    match FiveSequences.read? part count size with
    | none => none
    | some sequences =>
      match BackwardBits.ofBytes? (part.extract sequences.bitsStart part.size) with
      | none => none
      | some bits =>
        match sequences.run? part literals limit count
          (.start sequences bits frame.history output) with
        | none => none
        | some last =>
          (finish? literals last.output last.literalsUsed limit).map
            ({ frame with history := last.history }, ·)

def runCoded? (frame : EarlyFrame) (limit : Nat) (part : ByteArray) (literals : LiteralSource)
    (output : ByteArray) : Option (EarlyFrame × ByteArray) :=
  let handsOn := frame.header.version = .seven
  match sequenceCount? part with
  | none => none
  | some (0, _) => (finish? literals output 0 limit).map (frame, ·)
  | some (count, size) =>
    if part.size < size + 4 then none
    else match TableRules.early.tables? frame.tables (part.extract size part.size) with
      | none => none
      | some (tables, tablesSize) =>
        match BackwardBits.ofBytes? (part.extract (size + tablesSize) part.size) with
        | none => none
        | some bits =>
          let offsets := if handsOn then frame.offsets else Offsets.earlyStart
          let rules := if handsOn then SequenceRules.seven else SequenceRules.six
          let start := SequenceState.start tables bits offsets frame.history output
          match start.run? rules tables literals limit count with
          | none => none
          | some last =>
            let next := { frame with history := last.history }
            let next := if handsOn then
                { next with tables := some tables, offsets := last.offsets }
              else next
            (finish? literals last.output last.literalsUsed limit).map (next, ·)

def decodeBlock? (frame : EarlyFrame) (limit : Nat) (block output : ByteArray) :
    Option (EarlyFrame × ByteArray) :=
  let version := frame.header.version
  if maxBlockSize ≤ block.size || version = .four then none
  else match EarlyLiterals.ofBlock? version frame.huffman block with
    | none => none
    | some literals =>
      let frame := { frame with huffman := literals.decoder }
      let part := block.extract literals.size block.size
      let source : LiteralSource :=
        ⟨literals.bytes ++ EarlyLiterals.behind literals block, literals.bytes.size⟩
      if version = .five then frame.runFive? limit part source output
      else frame.runCoded? limit part source output

end EarlyFrame

end ClassicZip.Codec.Zstd
