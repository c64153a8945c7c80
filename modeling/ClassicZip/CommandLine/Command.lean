import ClassicZip.CommandLine.Arguments
import ClassicZip.Method

/-!
# Commands

What can be asked for on a command line. The paths of the archive and of the output directory can
come from the environment.
-/

namespace ClassicZip.CommandLine

structure AddOptions where
  method : Method
  level : Option Int
  alignment : UInt16
  /-- Goes in front of every entry name. -/
  leadingPath : Option String
  /-- Extend an archive instead of replacing it. -/
  extend : Bool

inductive Action
  | list (filter : Option String) (detailed : Bool)
  | extract (output : String) (filter : Option String)
  | cat (entry : String) (raw : Bool)
  | add (inputs : List String) (options : AddOptions)
  | mkdir (name : String)
  | delete (names : List String) (inPlace : Bool)
  | comment (text : Option String)

structure Command where
  archive : String
  action : Action

structure Environment where
  archive : Option String
  output : Option String

namespace Command

def archiveForm : OptionForm := ⟨"archive", some 'a', true⟩

def filterForm : OptionForm := ⟨"filter", some 'f', true⟩

/-- A path; the empty one is none. -/
def path (option value : String) : Except Refusal String :=
  if value = "" then .error (.badValue option value) else .ok value

def requiredPath (arguments : Arguments) (fallback : Option String) (long : String) :
    Except Refusal String :=
  match arguments.value? long <|> fallback with
  | some value => path long value
  | none => .error (.missingArgument s!"--{long}")

def requiredOperand (arguments : Arguments) (name : String) : Except Refusal String :=
  match arguments.operands.head? with
  | some operand => .ok operand
  | none => .error (.missingArgument name)

def requiredOperands (arguments : Arguments) (name : String) : Except Refusal (List String) :=
  if arguments.operands.isEmpty then .error (.missingArgument name) else .ok arguments.operands

def methodNamed? (name : String) : Option Method :=
  [Method.store, .deflate, .bzip2, .zstd].find? fun method => method.name = name

def method (arguments : Arguments) : Except Refusal Method :=
  match arguments.value? "compression" with
  | none => .ok .deflate
  | some name =>
    match methodNamed? name with
    | some method => .ok method
    | none => .error (.badValue "compression" name)

def number (arguments : Arguments) (low high : Int) (long : String) :
    Except Refusal (Option Int) :=
  match arguments.value? long with
  | none => .ok none
  | some text =>
    match integer? low high text with
    | some value => .ok (some value)
    | none => .error (.badValue long text)

def reading (environment : Environment) (forms : List OptionForm) (maxOperands : Option Nat)
    (words : List String) (action : Arguments → Except Refusal Action) :
    Except Refusal Command := do
  let arguments ← readWords (archiveForm :: forms) maxOperands Arguments.empty words
  let archive ← requiredPath arguments environment.archive "archive"
  return ⟨archive, ← action arguments⟩

def addForms : List OptionForm :=
  [⟨"compression", some 'c', true⟩, ⟨"level", some 'l', true⟩, ⟨"align", none, true⟩,
    ⟨"prefix", some 'p', true⟩, ⟨"append", none, false⟩]

def addAction (arguments : Arguments) : Except Refusal Action := do
  let operands ← requiredOperands arguments "<FILES>..."
  let inputs ← operands.mapM (path "<FILES>...")
  let level ← number arguments (-0x80000000) 0x7FFFFFFF "level"
  let alignment ← number arguments 0 65535 "align"
  return .add inputs {
    method := ← method arguments
    level := level
    alignment := UInt16.ofNat (alignment.getD 0).toNat
    leadingPath := arguments.value? "prefix"
    extend := arguments.has "append" }

def named (environment : Environment) (name : String) (words : List String) :
    Except Refusal Command :=
  match name with
  | "list" => reading environment [filterForm, ⟨"detailed", some 'd', false⟩] (some 0) words
      fun arguments => return .list (arguments.value? "filter") (arguments.has "detailed")
  | "extract" => reading environment [⟨"output", some 'o', true⟩, filterForm] (some 0) words
      fun arguments => do
        let output ← requiredPath arguments environment.output "output"
        return .extract output (arguments.value? "filter")
  | "cat" => reading environment [⟨"raw", none, false⟩] (some 1) words fun arguments => do
      return .cat (← requiredOperand arguments "<ENTRY>") (arguments.has "raw")
  | "add" => reading environment addForms none words addAction
  | "mkdir" => reading environment [] (some 1) words fun arguments => do
      return .mkdir (← requiredOperand arguments "<NAME>")
  | "delete" => reading environment [⟨"fill-void", none, false⟩] none words fun arguments => do
      return .delete (← requiredOperands arguments "<NAMES>...") (arguments.has "fill-void")
  | "comment" => reading environment [⟨"set", some 's', true⟩] (some 0) words fun arguments =>
      return .comment (arguments.value? "set")
  | _ => .error (.unknownCommand name)

def names : List String := ["list", "extract", "cat", "add", "mkdir", "delete", "comment"]

def ofWords (environment : Environment) : List String → Except Refusal Command
  | [] => .error .missingCommand
  | word :: rest =>
    if word = "--help" ∨ word.startsWith "-h" then .error .help
    else if word = "--version" ∨ word.startsWith "-V" then .error .version
    else if word = "help" then
      match rest with
      | [] => .error .help
      | [name] => if name ∈ "help" :: names then .error .help else .error (.unknownCommand name)
      | _ => .error (.unexpected word)
    else if isPlain word.toList then named environment word rest
    else .error (.unknownOption word)

def trees (command : Command) : List String :=
  match command.action with
  | .extract output _ => [output]
  | .add inputs _ => inputs
  | _ => []

def needsClock (command : Command) : Bool :=
  match command.action with
  | .add .. | .mkdir _ => true
  | _ => false

def version : String := "zipline 0.1.0\n"

def usage : String :=
  "Usage: zipline <COMMAND>\n\nCommands:\n" ++
    "  list     List contents of an archive\n" ++
    "  extract  Extract entries to a directory\n" ++
    "  cat      Write one entry to stdout\n" ++
    "  add      Add files or directory trees\n" ++
    "  mkdir    Add a directory entry\n" ++
    "  delete   Delete entries\n" ++
    "  comment  Print or set the archive comment\n"

end Command

end ClassicZip.CommandLine
