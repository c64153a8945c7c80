import ClassicZip.Directory
import ClassicZip.Extra

/-!
# Archives being written

A draft knows the entries so far, where the next one goes and what the comment will be; the bytes
themselves lie in an image beside it. Each change is planned against the draft alone and may be
refused there; a plan is carried out on the image without fail. So a refused change leaves the
image as it was.
-/

namespace ClassicZip

/-- Where an archive that is being extended keeps its old directory. -/
structure OldTrailer where
  start : Nat
  stop : Nat
  deriving DecidableEq, Repr

structure Draft where
  entries : Array Entry
  /-- Where the next local header goes. -/
  cursor : Nat
  comment : ByteArray
  oldTrailer : Option OldTrailer
  deriving DecidableEq

/-- An entry that has its place, and the bytes in front of its data. -/
structure Placement where
  entry : Entry
  offset : Nat
  header : ByteArray

/-- The directory that ends an archive, and where the old one is to be cleared. -/
structure Trailer where
  start : Nat
  bytes : ByteArray
  clearFrom : Nat
  clearCount : Nat

namespace Draft

def empty : Draft := ⟨#[], 0, ByteArray.empty, none⟩

def ofImage (image : ByteArray) : Except Fault Draft :=
  if image.size = 0 then .ok empty
  else
    match Directory.read image with
    | .error fault => .error fault
    | .ok directory => .ok {
        entries := directory.entries
        cursor := directory.imageSize
        comment := directory.comment
        oldTrailer := some ⟨directory.offset, directory.imageSize⟩ }

def withComment (draft : Draft) (comment : ByteArray) : Except Fault Draft :=
  if maxLength < comment.size then .error (.commentTooLong comment.size)
  else .ok { draft with comment := comment }

def paddedExtra (draft : Draft) (entry : Entry) (localExtra : ByteArray) (alignment : UInt16) :
    ByteArray :=
  if alignment = 0 then localExtra
  else
    let padding := Alignment.padding draft.cursor (entry.name.size + localExtra.size) alignment
    localExtra ++ Alignment.block alignment padding

def headerBytes (entry : Entry) (localExtra : ByteArray) : ByteArray :=
  Bytes.le32 LocalHeader.signature ++ (entry.localHeader localExtra.size).encode ++ entry.name ++
    localExtra

def place (draft : Draft) (entry : Entry) (localExtra : ByteArray) (alignment : UInt16)
    (storedSize : Nat) : Except Fault Placement :=
  if maxLength < entry.name.size then .error (.oversize (.nameLength entry.name.size))
  else if maxLength ≤ draft.entries.size then .error (.oversize .entryCount)
  else
    let extra := draft.paddedExtra entry localExtra alignment
    let stop := draft.cursor + LocalHeader.fixedSize + entry.name.size + extra.size + storedSize
    if maxLength < extra.size then .error (.oversize (.localExtra extra.size))
    else if maxOffset < stop then .error (.oversize (.entryEnd entry.nameText stop))
    else .ok {
      entry := { entry with
        index := draft.entries.size
        localOffset := UInt32.ofNat draft.cursor }
      offset := draft.cursor
      header := headerBytes entry extra }

def add (draft : Draft) (placement : Placement) (storedSize : Nat) : Draft :=
  { draft with
    entries := draft.entries.push placement.entry
    cursor := placement.offset + placement.header.size + storedSize }

def remove (draft : Draft) (position : Nat) : Draft :=
  { draft with
    entries := (draft.entries.eraseIdxIfInBounds position).mapIdx fun index entry =>
      { entry with index := index } }

def position? (draft : Draft) (name : ByteArray) : Option Nat :=
  draft.entries.findIdx? fun entry => entry.name == name

def directoryBytes (draft : Draft) : ByteArray :=
  draft.entries.foldl (fun bytes entry => bytes ++ entry.directoryBytes) ByteArray.empty

/-- Where a trailer of `length` bytes goes: behind the last entry or, when nothing was written
since the archive was taken up, into the room of the old trailer and up to its end. -/
def trailerStart (draft : Draft) (length : Nat) : Nat :=
  match draft.oldTrailer with
  | none => draft.cursor
  | some old =>
    if draft.cursor = old.stop then
      if length ≤ old.stop - old.start then old.stop - length else old.start
    else draft.cursor

def clearRange (draft : Draft) (start : Nat) : Nat × Nat :=
  match draft.oldTrailer with
  | none => (start, 0)
  | some old =>
    if draft.cursor = old.stop then (old.start, start - old.start) else (start, 0)

def trailer (draft : Draft) : Except Fault Trailer :=
  if maxLength < draft.entries.size then
    .error (.oversize (.listedEntries draft.entries.size))
  else
    let directory := draft.directoryBytes
    let length := directory.size + EndRecord.fixedSize + draft.comment.size
    let start := draft.trailerStart length
    if maxOffset < start + length then .error (.oversize (.directoryEnd (start + length)))
    else
      let record := EndRecord.ofSingleDisk (UInt16.ofNat draft.entries.size)
        (UInt32.ofNat directory.size) (UInt32.ofNat start) (UInt16.ofNat draft.comment.size)
      let cleared := draft.clearRange start
      .ok {
        start := start
        bytes := directory ++ Bytes.le32 EndRecord.signature ++ record.encode ++ draft.comment
        clearFrom := cleared.1
        clearCount := cleared.2 }

def summary (draft : Draft) (isClosed : Bool) : String :=
  s!"ZipWriter \x7b entries: {draft.entries.size}, cursor: {draft.cursor}, " ++
    s!"closed: {isClosed} \x7d"

end Draft

def Placement.write (placement : Placement) (stored image : ByteArray) : ByteArray :=
  Bytes.overwrite (Bytes.overwrite image placement.offset placement.header)
    (placement.offset + placement.header.size) stored

/-- Clears what is left of the old trailer, writes the new one and ends the image after it. -/
def Trailer.write (trailer : Trailer) (image : ByteArray) : ByteArray :=
  let cleared := Bytes.zeroFill image trailer.clearFrom trailer.clearCount
  Bytes.resize (Bytes.overwrite cleared trailer.start trailer.bytes)
    (trailer.start + trailer.bytes.size)

end ClassicZip
