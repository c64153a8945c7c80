import ClassicZip.CommandLine.Command
import ClassicZip.CommandLine.Report
import ClassicZip.FileArchive
import ClassicZip.FileWriter
import ClassicZip.Pattern

/-!
# Carrying out commands

A command works on a disk and prints as it goes. What it has printed and done to the disk stands
even if it fails later.
-/

namespace ClassicZip.CommandLine

inductive Printed
  | bytes (content : ByteArray)
  /-- A line with the time that the work took between the two texts. -/
  | timed (before after : String)

structure Progress where
  disk : Disk
  printed : Array Printed

/-- The work of a command: it fails with a report and keeps its progress. -/
abbrev Work := ExceptT Report (StateM Progress)

namespace Work

def print (text : String) : Work Unit :=
  modify fun progress => { progress with printed := progress.printed.push (.bytes text.toUTF8) }

def printLine (text : String) : Work Unit := print (text ++ "\n")

def printTimed (before after : String) : Work Unit :=
  modify fun progress => { progress with printed := progress.printed.push (.timed before after) }

def printBytes (content : ByteArray) : Work Unit :=
  modify fun progress => { progress with printed := progress.printed.push (.bytes content) }

def disk : Work Disk := do return (← get).disk

def orReport {ε α : Type} (report : ε → Report) : Except ε α → Work α
  | .ok value => pure value
  | .error fault => throw (report fault)

def onDisk {ε α : Type} (report : ε → Report) (act : Disk → Disk × Except ε α) : Work α := do
  let progress ← get
  let (disk, result) := act progress.disk
  set { progress with disk := disk }
  orReport report result

end Work

open Work

def fileReport (cause : FileFault) : Report := ⟨cause.message, []⟩

def openFailure : String := "Failed to open archive"

def appendFailure : String := "Failed to open archive for appending"

def closeFailure : String := "Failed to write central directory"

def openArchive (path : String) : Work FileArchive := do
  orReport (Report.because openFailure) (FileArchive.open (← disk) path)

def change (writer : FileWriter) (report : Fault → Report)
    (act : FileWriter → Disk → FileWriter × Disk × Except Fault Unit) : Work FileWriter := do
  let progress ← get
  let (writer, disk, result) := act writer progress.disk
  set { progress with disk := disk }
  orReport report result
  return writer

def closeWriter (writer : FileWriter) : Work Unit := do
  let _ ← change writer (Report.because closeFailure) FileWriter.close

def filterPattern (filter : Option String) : Work (Option (List Token)) :=
  match filter with
  | none => return none
  | some text =>
    match Pattern.ofFilter text with
    | .ok tokens => return some tokens
    | .error fault => throw ⟨s!"Invalid glob pattern: {text}", [fault.message]⟩

def selects (pattern : Option (List Token)) (entry : Entry) : Bool :=
  match pattern with
  | none => true
  | some tokens => Pattern.accepts tokens entry.nameText

def detailLine (archive : Archive) (entry : Entry) : String :=
  let offset := match archive.dataOffset entry with
    | .ok offset => toString offset
    | .error _ => "?"
  String.intercalate " " [Text.alignRight 12 (toString entry.storedSize.toNat),
    Text.alignRight 12 (toString entry.size.toNat), Text.alignLeft 8 entry.method.label,
    Text.hexDigits 8 entry.crc.toNat, Text.alignRight 12 offset, entry.nameText]

def list (path : String) (filter : Option String) (detailed : Bool) : Work Unit := do
  let archive ← openArchive path
  let pattern ← filterPattern filter
  let entries := archive.directory.entries.toList.filter (selects pattern)
  let view := archive.on (← disk)
  for entry in entries do
    printLine (if detailed then detailLine view entry else entry.nameText)
  print s!"\nTotal: {entries.length} entries\n"

/-- Writes the data of one entry below the output directory. Answers whether it was skipped. -/
def extractEntry (archive : FileArchive) (output : String) (entry : Entry) : Work Bool := do
  let name := entry.nameText
  match Path.safe? name with
  | none => return true
  | some names =>
    if !entry.isDirectory && !entry.method.isSupported then return true
    let target := Path.join output (Path.ofNames names)
    if entry.isDirectory then
      onDisk fileReport fun disk => disk.makeDirectories target
    else
      onDisk fileReport fun disk => disk.makeDirectories ((Path.parent? target).getD "")
      let data ← orReport (Report.because s!"Failed to read entry {name}")
        ((archive.on (← disk)).readData entry)
      let report (cause : FileFault) : Report := ⟨s!"Failed to write {target}", [cause.message]⟩
      let _ ← onDisk report fun disk => disk.writeFile target data
    return false

def extract (path output : String) (filter : Option String) : Work Unit := do
  printLine s!"Opening archive: {path}"
  let archive ← openArchive path
  printTimed s!"Loaded {archive.directory.entries.size} entries in " ""
  let pattern ← filterPattern filter
  let entries := archive.directory.entries.toList.filter (selects pattern)
  printLine s!"Extracting {entries.length} entries..."
  onDisk fileReport fun disk => disk.makeDirectories output
  let mut skipped := 0
  for entry in entries do
    if ← extractEntry archive output entry then
      skipped := skipped + 1
  printTimed "Extraction completed in " s!" ({skipped} skipped)"

def cat (path name : String) (raw : Bool) : Work Unit := do
  let archive := (← openArchive path).on (← disk)
  match ← orReport Report.ofFault (archive.entryNamed? name.toUTF8) with
  | none => throw ⟨s!"No entry named {name}", []⟩
  | some entry =>
    let content := if raw then archive.readRaw entry else archive.readData entry
    printBytes (← orReport (Report.because s!"Failed to read entry {name}") content)

/-- What a walk from `input` found becomes an entry; without a name it is passed over. -/
def addItem (now : Int) (options : AddOptions) (input : String) (item : Disk.Item)
    (writer : FileWriter) : Work (FileWriter × Bool) := do
  let above := match Path.parent? input with
    | none => 0
    | some parent => (Path.components parent).length
  let name := Path.entryName options.leadingPath ((Path.components item.path).drop above)
  let entryOptions : EntryOptions := {
    method := options.method
    alignment := options.alignment
    level := options.level
    modified := now }
  if name = "" then return (writer, false)
  if item.isDirectory then
    let plain : EntryOptions := { method := .store, modified := now }
    let writer ← change writer Report.ofFault fun writer disk =>
      writer.addDirectory disk name plain
    return (writer, true)
  else
    let report (cause : FileFault) : Report := ⟨s!"Failed to read {item.path}", [cause.message]⟩
    let data ← orReport report ((← disk).contents item.path)
    let writer ← change writer (Report.because s!"Failed to add {name}") fun writer disk =>
      writer.addFile disk name data entryOptions
    return (writer, true)

def walkReport (input : String) (cause : FileFault) : Report :=
  ⟨s!"Failed to walk {input}",
    [s!"IO error for operation on {input}: {cause.message}", cause.message]⟩

def add (now : Int) (path : String) (inputs : List String) (options : AddOptions) :
    Work Unit := do
  let mut writer ← if options.extend then
      onDisk (Report.because appendFailure) fun disk => FileWriter.append disk path
    else
      onDisk (Report.because "Failed to create archive") fun disk => FileWriter.create disk path
  let mut added := 0
  for input in inputs do
    for item in ← orReport (walkReport input) ((← disk).walk input) do
      let (next, isAdded) ← addItem now options input item writer
      writer := next
      if isAdded then
        added := added + 1
  closeWriter writer
  printTimed s!"Added {added} entries in " ""

def mkdir (now : Int) (path name : String) : Work Unit := do
  let writer ← onDisk (Report.because appendFailure) fun disk => FileWriter.append disk path
  let options : EntryOptions := { method := .store, modified := now }
  let writer ← change writer Report.ofFault fun writer disk => writer.addDirectory disk name options
  closeWriter writer

def sizeOf (disk : Disk) (path : String) : Except FileFault Nat :=
  match disk.find path with
  | .error cause => .error cause
  | .ok (_, .directory) => .ok 0
  | .ok (_, .file id) => .ok (disk.bytes id).size

def delete (path : String) (names : List String) (inPlace : Bool) : Work Unit := do
  let report (cause : FileFault) : Report := ⟨s!"Failed to stat {path}", [cause.message]⟩
  let before ← orReport report (sizeOf (← disk) path)
  let mut writer ← onDisk (Report.because openFailure) fun disk => FileWriter.append disk path
  if inPlace then
    for name in names do
      writer ← change writer (Report.because s!"Failed to delete {name}") fun writer disk =>
        writer.eraseInPlace disk name
  else
    writer ← change writer (Report.because "Failed to rebuild archive") fun writer disk =>
      writer.rebuildWithout disk names
  closeWriter writer
  let after ← orReport fileReport (sizeOf (← disk) path)
  printLine s!"Deleted {names.length} entries ({before} -> {after} bytes)"

def setComment (path text : String) : Work Unit := do
  let writer ← onDisk (Report.because openFailure) fun disk => FileWriter.append disk path
  let writer ← change writer Report.ofFault fun writer disk =>
    writer.setComment disk text.toUTF8
  closeWriter writer

def showComment (path : String) : Work Unit := do
  let archive ← openArchive path
  printLine (Text.decodeLossy archive.directory.comment)

/-- Carries out a command; new entries are as old as `now`. -/
def Command.run (now : Int) (command : Command) : Work Unit :=
  match command.action with
  | .list filter detailed => list command.archive filter detailed
  | .extract output filter => extract command.archive output filter
  | .cat entry raw => cat command.archive entry raw
  | .add inputs options => add now command.archive inputs options
  | .mkdir name => mkdir now command.archive name
  | .delete names inPlace => delete command.archive names inPlace
  | .comment none => showComment command.archive
  | .comment (some text) => setComment command.archive text

/-- How a command ended, what it printed and the disk after it. -/
structure Outcome where
  failure : Option Report
  progress : Progress

def Command.execute (now : Int) (disk : Disk) (command : Command) : Outcome :=
  match (command.run now).run.run ⟨disk, #[]⟩ with
  | (.ok (), progress) => ⟨none, progress⟩
  | (.error report, progress) => ⟨some report, progress⟩

end ClassicZip.CommandLine
