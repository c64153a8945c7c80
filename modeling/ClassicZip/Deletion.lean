import ClassicZip.Writer

/-!
# Deleting entries

An entry is deleted in place, by zeros over its header and data, or by rebuilding the archive
without it. In place nothing moves and no space is won. A rebuild copies the stored bytes of the
entries that stay into a new archive and aligns them again as their old headers say.
-/

namespace ClassicZip

namespace Entry

def descriptorSignature : UInt32 := 0x08074b50

/-- The size of a data descriptor without its signature. -/
def descriptorSize : Nat := 12

def descriptorLength (image : ByteArray) (offset : Nat) : Except Fault Nat :=
  let signed := offset + 4 ≤ image.size && Bytes.u32At image offset == descriptorSignature
  let length := if signed then descriptorSize + 4 else descriptorSize
  if image.size < offset + length then .error (.truncated .dataDescriptor offset)
  else .ok length

/-- What an entry takes up, from its local header to the end of its data or of the descriptor
behind it: where it starts and how long it is. -/
def extent (image : ByteArray) (entry : Entry) : Except Fault (Nat × Nat) := do
  let start := entry.localOffset.toNat
  let here ← entry.locate image image.size
  let stop := entry.dataEnd here
  if image.size < stop then
    throw (.truncated .entryData here.dataOffset)
  if entry.flags &&& descriptorFlag = 0 then
    return (start, stop - start)
  let descriptor ← descriptorLength image stop
  return (start, stop + descriptor - start)

/-- The entry as a rebuilt archive lists it: no descriptor follows its data. -/
def withoutDescriptor (entry : Entry) : Entry :=
  { entry with flags := entry.flags &&& ~~~descriptorFlag }

end Entry

namespace Draft

def findErasable (draft : Draft) (image : ByteArray) (name : String) :
    Except Fault (Nat × Nat × Nat) :=
  match draft.position? name.toUTF8 with
  | none => .error (.entryNotFound name)
  | some position =>
    match draft.entries[position]? with
    | none => .error (.entryNotFound name)
    | some entry =>
      match entry.extent image with
      | .error fault => .error fault
      | .ok extent => .ok (position, extent)

def missingName? (draft : Draft) (names : List String) : Option String :=
  names.find? fun name => (draft.position? name.toUTF8).isNone

def survivors (draft : Draft) (names : List String) : List Entry :=
  let doomed := names.map String.toUTF8
  draft.entries.toList.filter fun entry => !doomed.contains entry.name

end Draft

namespace Writer

def eraseInPlace (writer : Writer) (name : String) : Writer × Except Fault Unit :=
  match writer with
  | ⟨draft, none⟩ => (⟨draft, none⟩, .error .writerClosed)
  | ⟨draft, some image⟩ =>
    match draft.findErasable image name with
    | .error fault => (⟨draft, some image⟩, .error fault)
    | .ok (position, start, count) =>
      (⟨draft.remove position, some (Bytes.zeroFill image start count)⟩, .ok ())

/-- Copies entries from the image that `source` holds, aligned as they were. -/
def copyEntries (source : ByteArray) : List Entry → Writer → Except Fault Writer
  | [], writer => .ok writer
  | entry :: rest, writer =>
    match entry.readStored source source.size with
    | .error fault => .error fault
    | .ok (here, stored) =>
      let alignment := (Alignment.find? here.extra).getD 0
      match writer.push entry.withoutDescriptor (Alignment.strip here.extra) alignment stored with
      | (_, .error fault) => .error fault
      | (writer, .ok ()) => copyEntries source rest writer

def rebuiltImage (draft : Draft) (source : ByteArray) (names : List String) :
    Except Fault ByteArray :=
  let staged : Writer := ⟨{ Draft.empty with comment := draft.comment }, some ByteArray.empty⟩
  match copyEntries source (draft.survivors names) staged with
  | .error fault => .error fault
  | .ok staged => staged.toBytes

/-- Deletes all entries that have one of the names; each name must be there. -/
def rebuildWithout (writer : Writer) (names : List String) : Writer × Except Fault Unit :=
  match writer with
  | ⟨draft, none⟩ => (⟨draft, none⟩, .error .writerClosed)
  | ⟨draft, some image⟩ =>
    match draft.missingName? names with
    | some name => (⟨draft, some image⟩, .error (.entryNotFound name))
    | none =>
      match rebuiltImage draft image names with
      | .error fault => (⟨draft, some image⟩, .error fault)
      | .ok rebuilt =>
        match Writer.ofBytes rebuilt with
        | .error fault => (⟨draft, some image⟩, .error fault)
        | .ok writer => (writer, .ok ())

end Writer

end ClassicZip
