import ClassicZip.CommandLine.Execution

/-!
# The program

Takes up the files that a command can touch, carries the command out on them, and puts what has
changed back in place.
-/

namespace ClassicZip.CommandLine

def absolutePath (place : Place) : String := "/" ++ Path.ofNames place

def takeUp (disk : Disk) (place : Place) : IO Disk := do
  let path := (← IO.currentDir) / absolutePath place
  if ← path.isDir then
    return { disk with nodes := disk.nodes.insert place .directory }
  else if (disk.node? place).isSome then
    return disk
  else if ← path.pathExists then
    let bytes ← IO.FS.readBinFile path
    return (disk.addFile place ⟨bytes, Disk.newFileMode⟩).1
  else return disk

/-- Takes up all that lies below a place. -/
partial def takeUpBelow (disk : Disk) (place : Place) : IO Disk := do
  let mut disk := disk
  for item in ← ((← IO.currentDir) / absolutePath place).readDir do
    let inner := place ++ [item.fileName]
    disk ← takeUp disk inner
    if disk.node? inner = some .directory then
      disk ← takeUpBelow disk inner
  return disk

/-- Takes up what lies on the way along a path, and all below its end if asked to. A place on the
way that is not there yet may come to be, so the way goes on behind it. -/
def takeUpPath (disk : Disk) (withTree : Bool) (path : String) : IO Disk := do
  let mut disk := disk
  let mut here := disk.startOf path
  for piece in Path.pieces path do
    if piece = ".." then
      here := here.dropLast
    else if piece ≠ "" ∧ piece ≠ "." then
      here := here ++ [piece]
      disk ← takeUp disk here
  if withTree ∧ disk.node? here = some .directory then
    disk ← takeUpBelow disk here
  return disk

def takeUpFor (command : Command) : IO Disk := do
  let names := (← IO.currentDir).components.filter (· ≠ "")
  let mut disk : Disk := ⟨∅, #[], names⟩
  for depth in [0:names.length] do
    disk := { disk with nodes := disk.nodes.insert (names.take (depth + 1)) .directory }
  disk ← takeUpPath disk false command.archive
  for tree in command.trees do
    disk ← takeUpPath disk true tree
  return disk

def putBack (before after : Disk) : IO Unit := do
  for (place, node) in after.below [] do
    let path := absolutePath place
    match node with
    | .directory =>
      if (before.node? place).isNone then
        IO.FS.createDir path
    | .file id =>
      let isKept := match before.node? place with
        | some (.file old) => before.bytes old == after.bytes id
        | _ => false
      unless isKept do
        IO.FS.writeBinFile path (after.bytes id)

def currentTime : IO Int := do
  let (_, path) ← IO.FS.createTempFile
  let modified := (← path.metadata).modified
  IO.FS.removeFile path
  return modified.sec

def printAll (printed : Array Printed) (elapsed : String) : IO Unit := do
  let stdout ← IO.getStdout
  for piece in printed do
    match piece with
    | .bytes content => stdout.write content
    | .timed before after => stdout.putStr (before ++ elapsed ++ after ++ "\n")
  stdout.flush

def carryOut (command : Command) : IO UInt32 := do
  let started ← IO.monoNanosNow
  let now ← if command.needsClock then currentTime else pure 0
  let disk ← takeUpFor command
  let outcome := command.execute now disk
  putBack disk outcome.progress.disk
  printAll outcome.progress.printed (Text.duration ((← IO.monoNanosNow) - started))
  match outcome.failure with
  | none => return 0
  | some report =>
    (← IO.getStderr).putStr report.render
    return 1

def start (words : List String) : IO UInt32 := do
  let environment : Environment :=
    ⟨← IO.getEnv "ZIPLINE_ARCHIVE", ← IO.getEnv "ZIPLINE_OUTPUT"⟩
  match Command.ofWords environment words with
  | .ok command => carryOut command
  | .error .help =>
    IO.print Command.usage
    return 0
  | .error .version =>
    IO.print Command.version
    return 0
  | .error refusal =>
    IO.eprint s!"error: {refusal.message}\n\n{Command.usage}"
    return 2

end ClassicZip.CommandLine

def main (words : List String) : IO UInt32 := ClassicZip.CommandLine.start words
