import ClassicZip.Archive
import ClassicZip.Disk

/-!
# Archives in files

An archive file is read through the file that was opened, whatever its name stands for since. Seen
at one moment of the disk it is an archive in memory; only its size is that of the moment at which
it was opened.
-/

namespace ClassicZip

structure FileArchive where
  name : String
  directory : Directory
  /-- The open file, until the archive is closed. -/
  file : Option FileId

namespace FileArchive

def unknownName : String := "unknown"

/-- A directory opens like a file and claims this length, but gives no bytes. -/
def directoryLength : Nat := 2 ^ 63 - 1

def directoryFault : Fault :=
  .file .readingTrailer (directoryLength - EndRecord.searchSpan) .isDirectory

def «open» (disk : Disk) (path : String) : Except Fault FileArchive :=
  match disk.find path with
  | .error cause => .error (.file .openingForReading 0 cause)
  | .ok (_, .directory) => .error directoryFault
  | .ok (_, .file id) =>
    match Directory.read (disk.bytes id) with
    | .error fault => .error fault
    | .ok directory =>
      .ok ⟨(Path.fileName? path).getD unknownName, directory, some id⟩

def close (archive : FileArchive) : FileArchive := { archive with file := none }

def on (archive : FileArchive) (disk : Disk) : Archive :=
  ⟨archive.name, archive.directory, archive.file.map disk.bytes⟩

end FileArchive

end ClassicZip
