import Std.Data.HashMap.Basic
import ClassicZip.Fault
import ClassicZip.Path

/-!
# A tree of files

A disk says what each place of a directory tree names, and holds the files apart from their names:
a file that is replaced under its name lives on for whoever has it open. All paths are read from
the working directory, or from the root if they start with a slash. Names are texts, as in all
paths: two that are no UTF-8 and decode alike are not told apart.
-/

namespace ClassicZip

/-- The names from the root down to a node. -/
abbrev Place := List String

/-- Tells the files of a disk apart, whatever they are called. -/
abbrev FileId := Nat

inductive Node
  | directory
  | file (id : FileId)
  deriving DecidableEq, Repr

structure FileData where
  bytes : ByteArray
  /-- Permission bits. -/
  mode : UInt32

instance : Inhabited FileData := ⟨⟨ByteArray.empty, 0⟩⟩

structure Disk where
  nodes : Std.HashMap Place Node
  files : Array FileData
  workingDirectory : Place

namespace Disk

def newFileMode : UInt32 := 0o644

def maxNameSize : Nat := 255

def maxPathSize : Nat := 4095

/-- What lies at a place; the root is always there. -/
def node? (disk : Disk) (place : Place) : Option Node :=
  if place = [] then some .directory else disk.nodes[place]?

/-- The place to which the pieces of a path lead from `here`. Only the last need not exist. -/
def follow (disk : Disk) (here : Place) : List String → Except FileFault Place
  | [] => .ok here
  | piece :: rest =>
    match disk.node? here with
    | none => .error .notFound
    | some (.file _) => .error .notDirectory
    | some .directory =>
      if piece = "" ∨ piece = "." then disk.follow here rest
      else if piece = ".." then disk.follow here.dropLast rest
      else if maxNameSize < piece.utf8ByteSize then .error .nameTooLong
      else disk.follow (here ++ [piece]) rest

def refusal? (path : String) : Option FileFault :=
  if path.contains '\x00' then some .nulInPath
  else if path = "" then some .notFound
  else if maxPathSize < path.utf8ByteSize then some .nameTooLong
  else none

def startOf (disk : Disk) (path : String) : Place :=
  if Path.isAbsolute path then [] else disk.workingDirectory

def resolve (disk : Disk) (path : String) : Except FileFault Place :=
  match refusal? path with
  | some fault => .error fault
  | none => disk.follow (disk.startOf path) (Path.pieces path)

def find (disk : Disk) (path : String) : Except FileFault (Place × Node) :=
  match disk.resolve path with
  | .error fault => .error fault
  | .ok place =>
    match disk.node? place with
    | none => .error .notFound
    | some node => .ok (place, node)

def isDirectory (disk : Disk) (path : String) : Bool :=
  match disk.find path with
  | .ok (_, .directory) => true
  | _ => false

/-- The pieces of a path up to the last that is not empty. -/
def trimmedPieces (path : String) : List String :=
  ((Path.pieces path).reverse.dropWhile (· = "")).reverse

def endsInSlash (path : String) : Bool := path.toList.getLast? == some '/'

def resolveNew (disk : Disk) (path : String) : Except FileFault Place :=
  match refusal? path with
  | some fault => .error fault
  | none => disk.follow (disk.startOf path) (trimmedPieces path)

def fileData (disk : Disk) (id : FileId) : FileData := disk.files.getD id default

def bytes (disk : Disk) (id : FileId) : ByteArray := (disk.fileData id).bytes

def mode (disk : Disk) (id : FileId) : UInt32 := (disk.fileData id).mode

def setBytes (disk : Disk) (id : FileId) (bytes : ByteArray) : Disk :=
  { disk with files := disk.files.modify id fun file => { file with bytes := bytes } }

def setMode (disk : Disk) (id : FileId) (mode : UInt32) : Disk :=
  { disk with files := disk.files.modify id fun file => { file with mode := mode } }

/-- Names a new file at `place`; what the place named before loses its name. -/
def addFile (disk : Disk) (place : Place) (file : FileData) : Disk × FileId :=
  ({ disk with
    nodes := disk.nodes.insert place (.file disk.files.size)
    files := disk.files.push file }, disk.files.size)

theorem bytes_addFile (disk : Disk) (place : Place) (file : FileData) :
    (disk.addFile place file).1.bytes (disk.addFile place file).2 = file.bytes := by
  simp [addFile, bytes, fileData]

theorem bytes_addFile_of_lt {disk : Disk} {id : FileId} (place : Place) (file : FileData)
    (h : id < disk.files.size) : (disk.addFile place file).1.bytes id = disk.bytes id := by
  simp [addFile, bytes, fileData, Array.getElem?_push, Nat.ne_of_lt h]

theorem bytes_setBytes {disk : Disk} {id : FileId} (bytes : ByteArray)
    (h : id < disk.files.size) : (disk.setBytes id bytes).bytes id = bytes := by
  simp [setBytes, Disk.bytes, fileData, h, Array.getElem_modify]

def openForWriting (disk : Disk) (path : String) : Disk × Except FileFault FileId :=
  match disk.resolveNew path with
  | .error fault => (disk, .error fault)
  | .ok place =>
    if endsInSlash path then (disk, .error .isDirectory)
    else
      match disk.node? place with
      | some .directory => (disk, .error .isDirectory)
      | some (.file id) => (disk, .ok id)
      | none =>
        match disk.addFile place ⟨ByteArray.empty, newFileMode⟩ with
        | (disk, id) => (disk, .ok id)

def contents (disk : Disk) (path : String) : Except FileFault ByteArray :=
  match disk.find path with
  | .error fault => .error fault
  | .ok (_, .directory) => .error .isDirectory
  | .ok (_, .file id) => .ok (disk.bytes id)

def writeFile (disk : Disk) (path : String) (bytes : ByteArray) :
    Disk × Except FileFault FileId :=
  match disk.openForWriting path with
  | (disk, .error fault) => (disk, .error fault)
  | (disk, .ok id) => (disk.setBytes id bytes, .ok id)

def makeDirectory (disk : Disk) (path : String) : Except FileFault Disk :=
  match disk.resolveNew path with
  | .error fault => .error fault
  | .ok place =>
    let last := (trimmedPieces path).getLast?
    if last = some "." ∨ last = some ".." ∨ (disk.node? place).isSome then .error .alreadyExists
    else .ok { disk with nodes := disk.nodes.insert place .directory }

/-- What it means that a directory could not be made: nothing, if it is there. -/
def unlessThere (disk : Disk) (path : String) (fault : FileFault) : Except FileFault Unit :=
  if fault = .alreadyExists ∧ disk.isDirectory path then .ok () else .error fault

/-- Makes the first of `paths`, each of which lies in the next one. Where that one is missing it is
made before; where something else is in the way nothing is made. -/
def makeUpwards (disk : Disk) : List String → Disk × Except FileFault Unit
  | [] => (disk, .ok ())
  | path :: above =>
    match disk.makeDirectory path with
    | .ok disk => (disk, .ok ())
    | .error .notFound =>
      match disk.makeUpwards above with
      | (disk, .error fault) => (disk, .error fault)
      | (disk, .ok ()) =>
        match disk.makeDirectory path with
        | .ok disk => (disk, .ok ())
        | .error fault => (disk, disk.unlessThere path fault)
    | .error fault => (disk, disk.unlessThere path fault)

def makeDirectories (disk : Disk) (path : String) : Disk × Except FileFault Unit :=
  if path = "" then (disk, .ok ()) else disk.makeUpwards (path :: (Path.above path))

/-- Puts a new file in the place of the one that a path names; the old one loses its name. -/
def replace (disk : Disk) (path : String) (file : FileData) : Except FileFault (Disk × FileId) :=
  match disk.resolveNew path with
  | .error fault => .error fault
  | .ok place =>
    match disk.node? place with
    | some .directory => .error .isDirectory
    | _ => .ok (disk.addFile place file)

structure Item where
  path : String
  /-- The names below the start of the walk. -/
  names : List String
  isDirectory : Bool

/-- The places of a tree come in this order: a directory before what it holds, and its items by
name. -/
def precedes (first second : Place) : Bool := !decide (second < first)

def below (disk : Disk) (top : Place) : List (List String × Node) :=
  let inside := disk.nodes.toList.filter fun item => top.isPrefixOf item.1 && item.1 ≠ top
  (inside.map fun item => (item.1.drop top.length, item.2)).mergeSort fun a b => precedes a.1 b.1

def walk (disk : Disk) (path : String) : Except FileFault (List Item) :=
  match disk.find path with
  | .error fault => .error fault
  | .ok (_, .file _) => .ok [⟨path, [], false⟩]
  | .ok (top, .directory) =>
    .ok (⟨path, [], true⟩ :: (disk.below top).map fun item =>
      ⟨item.1.foldl Path.join path, item.1, item.2 = .directory⟩)

end Disk

end ClassicZip
