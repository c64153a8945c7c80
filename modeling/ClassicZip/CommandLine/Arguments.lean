/-!
# Arguments

The words of a command line, sorted into options and operands. An option has a long form, may have
a short one, and takes a value or none; its value ends the same word or is the next word. A word
that starts with a hyphen is no value and no operand, unless it is the hyphen alone or two hyphens
came before. No option can be given twice.
-/

namespace ClassicZip.CommandLine

structure OptionForm where
  long : String
  short : Option Char
  takesValue : Bool

inductive Refusal
  /-- Help was asked for. -/
  | help
  | version
  | unknownOption (word : String)
  | missingValue (option : String)
  | unwantedValue (option : String)
  | repeated (option : String)
  | badValue (option value : String)
  | missingArgument (name : String)
  | unexpected (word : String)
  | unknownCommand (word : String)
  | missingCommand
  deriving DecidableEq, Repr

def Refusal.message : Refusal → String
  | .help | .version => ""
  | .unknownOption word => s!"unexpected argument '{word}' found"
  | .missingValue option => s!"a value is required for '--{option}' but none was supplied"
  | .unwantedValue option => s!"no value is allowed for '--{option}'"
  | .repeated option => s!"the argument '--{option}' cannot be used multiple times"
  | .badValue option value => s!"invalid value '{value}' for '{option}'"
  | .missingArgument name => s!"the required argument '{name}' was not provided"
  | .unexpected word => s!"unexpected argument '{word}' found"
  | .unknownCommand word => s!"unrecognized subcommand '{word}'"
  | .missingCommand => "a subcommand is required"

structure Arguments where
  /-- The options given, by long form, with their values. -/
  options : List (String × Option String)
  operands : List String

namespace Arguments

def empty : Arguments := ⟨[], []⟩

def has (arguments : Arguments) (long : String) : Bool :=
  arguments.options.any fun option => option.1 = long

def value? (arguments : Arguments) (long : String) : Option String :=
  (arguments.options.lookup long).join

def add (arguments : Arguments) (long : String) (value : Option String) :
    Except Refusal Arguments :=
  if arguments.has long then .error (.repeated long)
  else .ok { arguments with options := arguments.options ++ [(long, value)] }

def addOperand (arguments : Arguments) (word : String) : Arguments :=
  { arguments with operands := arguments.operands ++ [word] }

end Arguments

def isPlain : List Char → Bool
  | ['-'] => true
  | '-' :: _ => false
  | _ => true

/-- What a word of options comes to: all read, or an option that waits for the next word. -/
inductive Reading
  | complete (arguments : Arguments)
  | waiting (arguments : Arguments) (long : String)

/-- Reads a word of short options: one after the other, up to one that takes a value. -/
def readShort (forms : List OptionForm) (arguments : Arguments) :
    List Char → Except Refusal Reading
  | [] => .ok (.complete arguments)
  | c :: rest =>
    match forms.find? fun form => form.short == some c with
    | none => if c = 'h' then .error .help else .error (.unknownOption s!"-{c}")
    | some form =>
      if form.takesValue then
        match rest with
        | [] => .ok (.waiting arguments form.long)
        | '=' :: value => do
          return .complete (← arguments.add form.long (some (String.ofList value)))
        | value => do
          return .complete (← arguments.add form.long (some (String.ofList value)))
      else
        match arguments.add form.long none with
        | .error refusal => .error refusal
        | .ok arguments => readShort forms arguments rest

def readLong (forms : List OptionForm) (arguments : Arguments) (word : List Char) :
    Except Refusal Reading :=
  let long := String.ofList (word.takeWhile (· ≠ '='))
  let value? := match word.dropWhile (· ≠ '=') with
    | [] => none
    | _ :: value => some (String.ofList value)
  match forms.find? fun form => form.long = long, value? with
  | none, none => if long = "help" then .error .help else .error (.unknownOption s!"--{long}")
  | none, some _ =>
    if long = "help" then .error (.unwantedValue long) else .error (.unknownOption s!"--{long}")
  | some form, none =>
    if form.takesValue then .ok (.waiting arguments long)
    else return .complete (← arguments.add long none)
  | some form, some value =>
    if form.takesValue then return .complete (← arguments.add long (some value))
    else .error (.unwantedValue long)

def readWords (forms : List OptionForm) (maxOperands : Option Nat) (arguments : Arguments) :
    List String → Except Refusal Arguments
  | [] => .ok arguments
  | word :: rest =>
    let operand (arguments : Arguments) (word : String) : Except Refusal Arguments :=
      if maxOperands = some arguments.operands.length then .error (.unexpected word)
      else .ok (arguments.addOperand word)
    match word.toList with
    | ['-', '-'] => rest.foldlM operand arguments
    | chars =>
      if isPlain chars then
        match operand arguments word with
        | .error refusal => .error refusal
        | .ok arguments => readWords forms maxOperands arguments rest
      else
        let reading := match chars with
          | '-' :: '-' :: long => readLong forms arguments long
          | _ => readShort forms arguments (chars.drop 1)
        match reading with
        | .error refusal => .error refusal
        | .ok (.complete arguments) => readWords forms maxOperands arguments rest
        | .ok (.waiting arguments long) =>
          match rest with
          | [] => .error (.missingValue long)
          | value :: rest =>
            if isPlain value.toList then
              match arguments.add long (some value) with
              | .error refusal => .error refusal
              | .ok arguments => readWords forms maxOperands arguments rest
            else .error (.missingValue long)

/-- A whole number: digits with or without a sign, in the given range. -/
def integer? (low high : Int) (text : String) : Option Int :=
  let digits? (chars : List Char) : Option Nat :=
    if chars.isEmpty ∨ !chars.all Char.isDigit then none
    else some (chars.foldl (fun value c => value * 10 + (c.toNat - '0'.toNat)) 0)
  let value? : Option Int := match text.toList with
    | '-' :: rest => (digits? rest).map fun value => -(value : Int)
    | '+' :: rest => (digits? rest).map Int.ofNat
    | chars => (digits? chars).map Int.ofNat
  value?.filter fun value => low ≤ value && value ≤ high

end ClassicZip.CommandLine
