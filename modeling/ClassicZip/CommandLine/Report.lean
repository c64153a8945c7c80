import ClassicZip.Fault

/-!
# Reports

A failed command reports what it could not do and, below that, the chain of causes. Several causes
are numbered from zero; the lines of a cause stand under its first.
-/

namespace ClassicZip.CommandLine

structure Report where
  message : String
  causes : List String
  deriving DecidableEq, Repr

namespace Report

def chain (fault : Fault) : List String := fault.message :: fault.sourceMessage?.toList

def ofFault (fault : Fault) : Report := ⟨fault.message, fault.sourceMessage?.toList⟩

def because (message : String) (fault : Fault) : Report := ⟨message, chain fault⟩

/-- Puts `text` behind `lead`, and further lines under its first. -/
def indent (lead : String) (text : String) : String :=
  let under := "\n" ++ String.ofList (List.replicate lead.length ' ')
  lead ++ String.join (text.toList.map fun c => if c = '\n' then under else String.singleton c)

def numbered (causes : List String) : List String :=
  causes.mapIdx fun index cause => indent (s!"    {index}: ") cause

def render (report : Report) : String :=
  let causes := match report.causes with
    | [] => []
    | [cause] => ["", "Caused by:", indent "    " cause]
    | causes => "" :: "Caused by:" :: numbered causes
  String.join ((("Error: " ++ report.message) :: causes).map fun line => line ++ "\n")

end Report

end ClassicZip.CommandLine
