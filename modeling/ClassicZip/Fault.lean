import ClassicZip.Cursor
import ClassicZip.Method
import ClassicZip.Text.Number

/-!
# What can go wrong

Every failure of reading, writing or deleting is one of these causes, and `Fault.message` is its
wording. `Fault.isMalformed` tells bytes that are no readable archive from misuse and from
failures of the file system.
-/

namespace ClassicZip

inductive FileFault
  | notFound
  | alreadyExists
  | notDirectory
  | isDirectory
  | invalidArgument
  | nameTooLong
  | nulInPath
  | shortRead
  deriving DecidableEq, Repr

def FileFault.message : FileFault → String
  | .notFound => "No such file or directory (os error 2)"
  | .alreadyExists => "File exists (os error 17)"
  | .notDirectory => "Not a directory (os error 20)"
  | .isDirectory => "Is a directory (os error 21)"
  | .invalidArgument => "Invalid argument (os error 22)"
  | .nameTooLong => "File name too long (os error 36)"
  | .nulInPath => "file name contained an unexpected NUL byte"
  | .shortRead => "failed to fill whole buffer"

/-- What was being done to the bytes of an archive. -/
inductive Activity
  | openingForReading
  | openingForWriting
  | creatingStaging
  | readingPermissions
  | replacingArchive
  | measuring
  | readingTrailer
  | readingDirectory
  | readingLocalHeader
  | readingLocalExtra
  | readingEntryData
  | readingDescriptor
  | readingArchive
  deriving DecidableEq, Repr

def Activity.name : Activity → String
  | .openingForReading => "opening archive"
  | .openingForWriting => "opening archive for writing"
  | .creatingStaging => "creating staging file"
  | .readingPermissions => "reading archive permissions"
  | .replacingArchive => "replacing archive"
  | .measuring => "measuring archive"
  | .readingTrailer => "reading archive trailer"
  | .readingDirectory => "reading central directory"
  | .readingLocalHeader => "reading local header"
  | .readingLocalExtra => "reading local extra field"
  | .readingEntryData => "reading entry data"
  | .readingDescriptor => "reading data descriptor"
  | .readingArchive => "reading archive"

/-- A part of an archive that can run past its end. -/
inductive Part
  | directory
  | directoryHeader
  | localHeader
  | entryData
  | dataDescriptor
  deriving DecidableEq, Repr

def Part.name : Part → String
  | .directory => "central directory"
  | .directoryHeader => "central directory header"
  | .localHeader => "local file header"
  | .entryData => "entry data"
  | .dataDescriptor => "data descriptor"

/-- What would need the 64-bit extensions. -/
inductive Oversize
  | endRecord
  | data (name : String) (size : Nat)
  | storedData (name : String) (size : Nat)
  | nameLength (size : Nat)
  | entryCount
  | localExtra (size : Nat)
  | entryEnd (name : String) (offset : Nat)
  | listedEntries (count : Nat)
  | directoryEnd (offset : Nat)
  deriving DecidableEq, Repr

def Oversize.message : Oversize → String
  | .endRecord => "archive has a ZIP64 end of central directory"
  | .data name size => s!"entry {name} is {size} bytes"
  | .storedData name size => s!"entry {name} compresses to {size} bytes"
  | .nameLength size => s!"entry name is {size} bytes"
  | .entryCount => "archive would hold more than 65535 entries"
  | .localExtra size => s!"local extra field is {size} bytes"
  | .entryEnd name offset => s!"entry {name} would end at offset {offset}"
  | .listedEntries count => s!"{count} entries"
  | .directoryEnd offset => s!"central directory would end at offset {offset}"

inductive DecodeFault
  | sizeMismatch (method : Method) (expected actual : Nat)
  | corrupt (method : Method)
  deriving DecidableEq, Repr

def DecodeFault.message : DecodeFault → String
  | .sizeMismatch method expected actual =>
    s!"{method.label} entry size mismatch: expected {expected}, got {actual}"
  | .corrupt method => s!"corrupt {method.label} stream"

inductive Fault
  | file (activity : Activity) (offset : Nat) (cause : FileFault)
  | read (cause : ReadFault)
  | badSignature (expected actual : UInt32) (offset : Nat)
  | endRecordNotFound
  | truncated (part : Part) (offset : Nat)
  | oversize (cause : Oversize)
  | unsupportedMethod (id : UInt16)
  | decoding (cause : DecodeFault)
  | checksumMismatch (name : String) (expected actual : UInt32)
  | entryNotFound (name : String)
  | archiveClosed
  | writerClosed
  | badAlignment (alignment : UInt16)
  | commentTooLong (size : Nat)
  deriving DecidableEq, Repr

namespace Fault

def message : Fault → String
  | .file activity offset cause =>
    s!"I/O error while {activity.name} at offset {offset}: {cause.message}"
  | .read cause => cause.message
  | .badSignature expected actual offset =>
    s!"invalid ZIP signature at offset {offset}: expected {Text.prefixedHex expected}, " ++
      s!"got {Text.prefixedHex actual}"
  | .endRecordNotFound => "could not find end of central directory record"
  | .truncated part offset => s!"truncated {part.name} at offset {offset}"
  | .oversize cause => s!"ZIP64 is not supported: {cause.message}"
  | .unsupportedMethod id => s!"unsupported compression method: {id}"
  | .decoding cause => s!"decompression error: {cause.message}"
  | .checksumMismatch name expected actual =>
    s!"CRC32 mismatch for {name}: expected {Text.prefixedHex expected}, " ++
      s!"got {Text.prefixedHex actual}"
  | .entryNotFound name => s!"entry not found: {name}"
  | .archiveClosed => "archive used after close"
  | .writerClosed => "writer is closed"
  | .badAlignment alignment => s!"invalid alignment {alignment}: must be 0 or a power of two"
  | .commentTooLong size => s!"archive comment too long: {size} bytes (max 65535)"

def sourceMessage? : Fault → Option String
  | .file _ _ cause => some cause.message
  | .read cause => some cause.message
  | _ => none

def isMalformed : Fault → Bool
  | .badSignature .. | .endRecordNotFound | .truncated .. | .read _ => true
  | _ => false

end Fault

end ClassicZip
