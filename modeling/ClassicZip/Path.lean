/-!
# Paths and entry names

A path is read as a list of components. Entry names are paths too, but not to be trusted: only a
name whose components all lead downwards is followed below an output directory.

Paths are texts. A file name that is no UTF-8 stands here as what it decodes to, with replacement
characters. Decoding keeps slashes and dots as they are and makes none, so the components of a
decoded path are the components of the path, decoded.
-/

namespace ClassicZip.Path

inductive Component
  | root
  | here
  | up
  | name (text : String)
  deriving DecidableEq, Repr

/-- The pieces between the slashes, empty ones included. -/
def split : List Char → List (List Char)
  | [] => [[]]
  | c :: rest =>
    if c = '/' then [] :: split rest
    else
      match split rest with
      | [] => [[c]]
      | piece :: pieces => (c :: piece) :: pieces

def pieces (path : String) : List String := (split path.toList).map String.ofList

/-- What a piece behind the first one means; an empty piece and a dot mean nothing there. -/
def component? (piece : String) : Option Component :=
  if piece = "" ∨ piece = "." then none
  else if piece = ".." then some .up
  else some (.name piece)

/-- The first piece is empty where the path starts with a slash, and a dot counts there. -/
def leading (path piece : String) : Option Component :=
  if path = "" then none
  else if piece = "" then some .root
  else if piece = "." then some .here
  else component? piece

def components (path : String) : List Component :=
  match pieces path with
  | [] => []
  | first :: rest => (leading path first).toList ++ rest.filterMap component?

def isAbsolute (path : String) : Bool := path.toList.head? == some '/'

def Component.name? : Component → Option String
  | .name text => some text
  | _ => none

def fileName? (path : String) : Option String :=
  match (components path).getLast? with
  | none => none
  | some component => component.name?

def Component.text : Component → String
  | .root => "/"
  | .here => "."
  | .up => ".."
  | .name text => text

def ofComponents : List Component → String
  | .root :: rest => "/" ++ String.intercalate "/" (rest.map Component.text)
  | components => String.intercalate "/" (components.map Component.text)

def parent? (path : String) : Option String :=
  match components path with
  | [] | [.root] => none
  | components => some (ofComponents components.dropLast)

/-- The paths above `path`, the nearest first; the root and the empty path are left out. -/
def above (path : String) : List String :=
  let components := components path
  let starts := (List.range components.length).map fun count => ofComponents (components.take count)
  (starts.filter fun start => start ≠ "" && start ≠ "/").reverse

def join (base path : String) : String :=
  if isAbsolute path ∨ base = "" then path
  else if base.toList.getLast? = some '/' then base ++ path
  else base ++ "/" ++ path

def ofNames (names : List String) : String := String.intercalate "/" names

def descent? : List Component → Option (List String)
  | [] => some []
  | .name text :: rest => (descent? rest).map (text :: ·)
  | .here :: rest => descent? rest
  | _ => none

/-- Where an entry goes below an output directory. A backslash separates as a slash does; a name
that is absolute, climbs or leads nowhere has no place. -/
def safe? (name : String) : Option (List String) :=
  match descent? (components (String.ofList (name.toList.map fun c => if c = '\\' then '/' else c)))
  with
  | none | some [] => none
  | some names => some names

def entryName (leadingPath : Option String) (relative : List Component) : String :=
  let parts := match leadingPath with
    | none => []
    | some text => (pieces text).filter (· ≠ "")
  ofNames (parts ++ relative.filterMap Component.name?)

end ClassicZip.Path
