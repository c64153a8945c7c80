/-!
# Name patterns

A pattern is a sequence of tokens that a name has to meet from its first character to its last.
Letters match in either case if they are ASCII. A star stands for any characters; two stars stand
for any directories in front of what follows and must fill the room between two slashes.
-/

namespace ClassicZip

inductive CharSet
  | single (c : Char)
  | range (low high : Char)
  deriving DecidableEq, Repr

inductive Token
  | char (c : Char)
  | anyChar
  | anySequence
  | anyDirectories
  | oneOf (sets : List CharSet)
  | noneOf (sets : List CharSet)
  deriving DecidableEq, Repr

inductive PatternError
  | tooManyStars
  | crowdedStars
  | badBracket
  deriving DecidableEq, Repr

def PatternError.text : PatternError → String
  | .tooManyStars => "wildcards are either regular `*` or recursive `**`"
  | .crowdedStars => "recursive wildcards must form a single path component"
  | .badBracket => "invalid range pattern"

/-- What is wrong with a pattern, and at which character. -/
structure PatternFault where
  position : Nat
  cause : PatternError
  deriving DecidableEq, Repr

def PatternFault.message (fault : PatternFault) : String :=
  s!"Pattern syntax error near position {fault.position}: {fault.cause.text}"

namespace CharSet

def ofChars : List Char → List CharSet
  | low :: '-' :: high :: rest => .range low high :: ofChars rest
  | c :: rest => .single c :: ofChars rest
  | [] => []

def isAscii (c : Char) : Bool := c.toNat < 128

/-- A range between letters holds them in either case. -/
def contains (c : Char) : CharSet → Bool
  | .single other => c.toLower == other.toLower
  | .range low high =>
    (low ≤ c && c ≤ high) ||
      (isAscii c && low.isAlpha && high.isAlpha &&
        low.toLower ≤ c.toLower && c.toLower ≤ high.toLower)

end CharSet

namespace Pattern

/-- The characters of a bracket, behind the opening one, and what follows the closing one. The
first character never closes. -/
def bracket? : List Char → Option (List Char × List Char)
  | [] => none
  | first :: rest =>
    match rest.dropWhile (· ≠ ']') with
    | [] => none
    | _ :: after => some (first :: rest.takeWhile (· ≠ ']'), after)

theorem length_of_bracket? {chars inner after : List Char}
    (h : bracket? chars = some (inner, after)) : after.length < chars.length := by
  unfold bracket? at h
  split at h
  · contradiction
  · rename_i first rest
    split at h
    · contradiction
    · rename_i close tail hdrop
      simp only [Option.some.injEq, Prod.mk.injEq] at h
      obtain ⟨-, rfl⟩ := h
      have := (List.dropWhile_sublist (l := rest) (· ≠ ']')).length_le
      simp only [hdrop, List.length_cons] at this ⊢
      omega

def bracketToken? : List Char → Option (Token × List Char)
  | '!' :: rest =>
    (bracket? rest).map fun (inner, after) => (.noneOf (CharSet.ofChars inner), after)
  | chars => (bracket? chars).map fun (inner, after) => (.oneOf (CharSet.ofChars inner), after)

theorem length_of_bracketToken? {chars after : List Char} {token : Token}
    (h : bracketToken? chars = some (token, after)) : after.length < chars.length := by
  unfold bracketToken? at h
  split at h
  · obtain ⟨⟨inner, tail⟩, hb, heq⟩ := Option.map_eq_some_iff.mp h
    simp only [Prod.mk.injEq] at heq
    have := length_of_bracket? hb
    simp only [List.length_cons]
    grind
  · obtain ⟨⟨inner, tail⟩, hb, heq⟩ := Option.map_eq_some_iff.mp h
    simp only [Prod.mk.injEq] at heq
    have := length_of_bracket? hb
    grind

/-- Adds the token of two stars. One of several in a row is enough behind another token. -/
def pushDirectories (tokens : Array Token) : Array Token :=
  if 1 < tokens.size ∧ tokens.back? = some .anyDirectories then tokens
  else tokens.push .anyDirectories

def parseFrom (position : Nat) (previous : Option Char) (tokens : Array Token) :
    List Char → Except PatternFault (Array Token)
  | [] => .ok tokens
  | '?' :: rest => parseFrom (position + 1) (some '?') (tokens.push .anyChar) rest
  | '*' :: '*' :: '*' :: _ => .error ⟨position + 2, .tooManyStars⟩
  | '*' :: '*' :: rest =>
    if previous = none ∨ previous = some '/' then
      match rest with
      | [] => .ok (pushDirectories tokens)
      | '/' :: rest => parseFrom (position + 3) (some '/') (pushDirectories tokens) rest
      | _ => .error ⟨position + 2, .crowdedStars⟩
    else .error ⟨position - 1, .crowdedStars⟩
  | '*' :: rest => parseFrom (position + 1) (some '*') (tokens.push .anySequence) rest
  | '[' :: rest =>
    match _h : bracketToken? rest with
    | none => .error ⟨position, .badBracket⟩
    | some (token, after) =>
      parseFrom (position + 1 + (rest.length - after.length)) (some ']') (tokens.push token) after
  | c :: rest => parseFrom (position + 1) (some c) (tokens.push (.char c)) rest
termination_by chars => chars.length
decreasing_by
  all_goals try have := length_of_bracketToken? _h
  all_goals simp only [List.length_cons]
  all_goals omega

def parse (text : String) : Except PatternFault (List Token) :=
  (parseFrom 0 none #[] text.toList).map Array.toList

/-- How an attempt at a match ends. An exhausted name cannot be met by consuming more of it. -/
inductive Verdict
  | matched
  | mismatch
  | exhausted
  deriving DecidableEq, Repr

/-- Tries `rest` behind ever more characters; with `wholeDirectories` only behind slashes. -/
def scan (wholeDirectories : Bool) (rest : List Char → Verdict) : List Char → Verdict
  | [] => rest []
  | c :: chars =>
    if wholeDirectories ∧ c ≠ '/' then scan wholeDirectories rest chars
    else
      match rest chars with
      | .mismatch => scan wholeDirectories rest chars
      | verdict => verdict

def meets (c : Char) : Token → Bool
  | .char other => c.toLower == other.toLower
  | .oneOf sets => sets.any (CharSet.contains c)
  | .noneOf sets => !sets.any (CharSet.contains c)
  | _ => true

def attempt : List Token → List Char → Verdict
  | [], chars => if chars.isEmpty then .matched else .mismatch
  | .anySequence :: tokens, chars =>
    match attempt tokens chars with
    | .mismatch => scan false (attempt tokens) chars
    | verdict => verdict
  | .anyDirectories :: tokens, chars =>
    match attempt tokens chars with
    | .mismatch => scan true (attempt tokens) chars
    | verdict => verdict
  | _ :: _, [] => .exhausted
  | token :: tokens, c :: chars => if meets c token then attempt tokens chars else .mismatch

def accepts (tokens : List Token) (name : String) : Bool :=
  attempt tokens name.toList == .matched

def escape (text : String) : String :=
  String.ofList (text.toList.flatMap fun c =>
    if c = '?' ∨ c = '*' ∨ c = '[' ∨ c = ']' then ['[', c, ']'] else [c])

def hasWildcard (text : String) : Bool :=
  text.toList.any fun c => c == '*' || c == '?' || c == '['

/-- The pattern of a filter. One without wildcards accepts every name that contains it. -/
def ofFilter (text : String) : Except PatternFault (List Token) :=
  parse (if hasWildcard text then text else "*" ++ escape text ++ "*")

end Pattern

end ClassicZip
