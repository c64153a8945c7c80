import Std.Data.HashSet.Basic
import ClassicZip.Directory
import ClassicZip.LocalEntry
import ClassicZip.Text.Quoted

/-!
# Archives opened for reading

An archive holds the directory that it was opened with; data is read from the image on demand.
Once closed it has no image, and everything but its name is refused.
-/

namespace ClassicZip

structure Archive where
  /-- Names the archive in diagnostics. -/
  name : String
  directory : Directory
  /-- The bytes of the archive, until it is closed. -/
  image : Option ByteArray
  deriving DecidableEq

namespace Archive

def memoryName : String := "<memory>"

def ofBytes (image : ByteArray) : Except Fault Archive :=
  match Directory.read image with
  | .error fault => .error fault
  | .ok directory => .ok ⟨memoryName, directory, some image⟩

def close (archive : Archive) : Archive := { archive with image := none }

def isClosed (archive : Archive) : Bool := archive.image.isNone

def whileOpen {α : Type} (archive : Archive) (value : α) : Except Fault α :=
  if archive.isClosed then .error .archiveClosed else .ok value

def entries (archive : Archive) : Except Fault (Array Entry) :=
  archive.whileOpen archive.directory.entries

def entryCount (archive : Archive) : Except Fault Nat :=
  archive.whileOpen archive.directory.entries.size

def comment (archive : Archive) : Except Fault ByteArray :=
  archive.whileOpen archive.directory.comment

/-- The names that occur, each once, in the order of their first entries. -/
def distinctNames (entries : Array Entry) : Array ByteArray :=
  let step (known : Std.HashSet ByteArray × Array ByteArray) (entry : Entry) :=
    if known.1.contains entry.name then known
    else (known.1.insert entry.name, known.2.push entry.name)
  (entries.foldl step (∅, #[])).2

def names (archive : Archive) : Except Fault (Array String) :=
  archive.whileOpen ((distinctNames archive.directory.entries).map Text.decodeLossy)

def entryAt? (archive : Archive) (index : Nat) : Except Fault (Option Entry) :=
  archive.whileOpen archive.directory.entries[index]?

def entryNamed? (archive : Archive) (name : ByteArray) : Except Fault (Option Entry) :=
  archive.whileOpen (archive.directory.entries.find? fun entry => entry.name == name)

def readRaw (archive : Archive) (entry : Entry) : Except Fault ByteArray :=
  match archive.image with
  | none => .error .archiveClosed
  | some image =>
    match entry.readStored image archive.directory.imageSize with
    | .error fault => .error fault
    | .ok (_, stored) => .ok stored

/-- The data of an entry; of a directory nothing is read. -/
def readData [Codec.Coders] (archive : Archive) (entry : Entry) : Except Fault ByteArray :=
  if entry.isDirectory then archive.whileOpen ByteArray.empty
  else
    match archive.readRaw entry with
    | .error fault => .error fault
    | .ok stored => entry.decode stored

def dataOffset (archive : Archive) (entry : Entry) : Except Fault Nat :=
  match archive.image with
  | none => .error .archiveClosed
  | some image =>
    match entry.locate image archive.directory.imageSize with
    | .error fault => .error fault
    | .ok here => .ok here.dataOffset

def summary (archive : Archive) : String :=
  s!"ZipArchive \x7b name: {Text.quoted archive.name}, " ++
    s!"entries: {archive.directory.entries.size}, closed: {archive.isClosed} \x7d"

end Archive

end ClassicZip
