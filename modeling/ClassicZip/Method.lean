/-!
# Compression methods

The methods an entry can name. An entry whose method is not supported can be listed and read raw.
-/

namespace ClassicZip

inductive Method
  | store
  | deflate
  | bzip2
  | zstd
  | unsupported (id : UInt16)
  deriving DecidableEq, Repr

namespace Method

def ofId (id : UInt16) : Method :=
  if id = 0 then .store
  else if id = 8 then .deflate
  else if id = 12 then .bzip2
  else if id = 93 then .zstd
  else .unsupported id

def id : Method → UInt16
  | .store => 0
  | .deflate => 8
  | .bzip2 => 12
  | .zstd => 93
  | .unsupported id => id

@[simp] theorem id_ofId (id : UInt16) : (ofId id).id = id := by
  unfold ofId
  split
  · simp_all [Method.id]
  · split
    · simp_all [Method.id]
    · split
      · simp_all [Method.id]
      · split <;> simp_all [Method.id]

/-- The compact code: `-1` stands for every method that is not supported. -/
def code : Method → Int
  | .unsupported _ => -1
  | .store => 0
  | .deflate => 1
  | .bzip2 => 2
  | .zstd => 3

def ofCode? (code : Int) : Option Method :=
  if code = 0 then some .store
  else if code = 1 then some .deflate
  else if code = 2 then some .bzip2
  else if code = 3 then some .zstd
  else none

def isSupported : Method → Bool
  | .unsupported _ => false
  | _ => true

def versionNeeded : Method → UInt16
  | .store | .unsupported _ => 10
  | .deflate => 20
  | .bzip2 => 46
  | .zstd => 63

def name : Method → String
  | .store => "store"
  | .deflate => "deflate"
  | .bzip2 => "bzip2"
  | .zstd => "zstd"
  | .unsupported _ => "unsupported"

def label : Method → String
  | .unsupported id => s!"unsupported({id})"
  | method => method.name

end Method

end ClassicZip
