import ClassicZip.Deletion
import ClassicZip.Disk

/-!
# Writing archive files

A file writer is a draft with the file that it is written to. For each change the file lends its
bytes to a writer in memory and takes back what that makes of them. A rebuild leaves the file
alone: it puts a new file in its place and goes on with that one.
-/

namespace ClassicZip

structure FileWriter where
  path : String
  draft : Draft
  /-- The open file, until the archive is closed. -/
  file : Option FileId

namespace FileWriter

def create (disk : Disk) (path : String) : Disk × Except Fault FileWriter :=
  match disk.openForWriting path with
  | (disk, .error cause) => (disk, .error (.file .openingForWriting 0 cause))
  | (disk, .ok id) => (disk.setBytes id ByteArray.empty, .ok ⟨path, .empty, some id⟩)

/-- Takes up the archive in a file to extend it; a missing file starts a new one. -/
def append (disk : Disk) (path : String) : Disk × Except Fault FileWriter :=
  match disk.openForWriting path with
  | (disk, .error cause) => (disk, .error (.file .openingForWriting 0 cause))
  | (disk, .ok id) =>
    match Draft.ofImage (disk.bytes id) with
    | .error fault => (disk, .error fault)
    | .ok draft => (disk, .ok ⟨path, draft, some id⟩)

def isClosed (writer : FileWriter) : Bool := writer.file.isNone

def update (writer : FileWriter) (disk : Disk)
    (change : Writer → Writer × Except Fault Unit) : FileWriter × Disk × Except Fault Unit :=
  match writer with
  | ⟨path, draft, none⟩ =>
    match change ⟨draft, none⟩ with
    | (writer, result) => (⟨path, writer.draft, none⟩, disk, result)
  | ⟨path, draft, some id⟩ =>
    let bytes := disk.bytes id
    let disk := disk.setBytes id ByteArray.empty
    match change ⟨draft, some bytes⟩ with
    | (⟨draft, image⟩, result) =>
      (⟨path, draft, some id⟩, disk.setBytes id (image.getD ByteArray.empty), result)

def setComment (writer : FileWriter) (disk : Disk) (comment : ByteArray) :
    FileWriter × Disk × Except Fault Unit :=
  writer.update disk fun writer => writer.setComment comment

def addFile [Codec.Coders] (writer : FileWriter) (disk : Disk) (name : String)
    (data : ByteArray) (options : EntryOptions) : FileWriter × Disk × Except Fault Unit :=
  writer.update disk fun writer => writer.addFile name data options

def addDirectory (writer : FileWriter) (disk : Disk) (name : String) (options : EntryOptions) :
    FileWriter × Disk × Except Fault Unit :=
  writer.update disk fun writer => writer.addDirectory name options

def eraseInPlace (writer : FileWriter) (disk : Disk) (name : String) :
    FileWriter × Disk × Except Fault Unit :=
  writer.update disk fun writer => writer.eraseInPlace name

def stage (disk : Disk) (path : String) : Except Fault UInt32 :=
  match disk.resolveNew path with
  | .error cause => .error (.file .creatingStaging 0 cause)
  | .ok _ =>
    match disk.find path with
    | .error cause => .error (.file .readingPermissions 0 cause)
    | .ok (_, .directory) => .ok Disk.newFileMode
    | .ok (_, .file id) => .ok (disk.mode id)

/-- Deletes all entries that have one of the names by putting a new archive in the place of the
file. If that one cannot be taken up the old file is still open, without its name. -/
def rebuildWithout (writer : FileWriter) (disk : Disk) (names : List String) :
    FileWriter × Disk × Except Fault Unit :=
  match writer.file with
  | none => (writer, disk, .error .writerClosed)
  | some id =>
    match writer.draft.missingName? names with
    | some name => (writer, disk, .error (.entryNotFound name))
    | none =>
      match stage disk writer.path with
      | .error fault => (writer, disk, .error fault)
      | .ok mode =>
        match Writer.rebuiltImage writer.draft (disk.bytes id) names with
        | .error fault => (writer, disk, .error fault)
        | .ok image =>
          match disk.replace writer.path ⟨image, mode⟩ with
          | .error cause => (writer, disk, .error (.file .replacingArchive 0 cause))
          | .ok (disk, newId) =>
            match Draft.ofImage image with
            | .error fault => (writer, disk, .error fault)
            | .ok draft => (⟨writer.path, draft, some newId⟩, disk, .ok ())

def close (writer : FileWriter) (disk : Disk) : FileWriter × Disk × Except Fault Unit :=
  match writer with
  | ⟨path, draft, none⟩ => (⟨path, draft, none⟩, disk, .ok ())
  | ⟨path, draft, some id⟩ =>
    let bytes := disk.bytes id
    let disk := disk.setBytes id ByteArray.empty
    match Writer.complete ⟨draft, some bytes⟩ with
    | (⟨draft, image⟩, .error fault) =>
      (⟨path, draft, some id⟩, disk.setBytes id (image.getD ByteArray.empty), .error fault)
    | (⟨draft, _⟩, .ok image) => (⟨path, draft, none⟩, disk.setBytes id image, .ok ())

/-- The bytes of the finished archive, which is in its file then. -/
def toBytes (writer : FileWriter) (disk : Disk) : Disk × Except Fault ByteArray :=
  match writer.file with
  | none => (disk, .error .writerClosed)
  | some id =>
    match writer.close disk with
    | (_, disk, .error fault) => (disk, .error fault)
    | (_, disk, .ok ()) => (disk, .ok (disk.bytes id))

end FileWriter

end ClassicZip
