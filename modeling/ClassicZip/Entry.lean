import ClassicZip.DosTime
import ClassicZip.Method
import ClassicZip.Record
import ClassicZip.Text.Utf8

/-!
# Entries

What the central directory says of one entry: its name, how its data is stored, and where its
local header lies.
-/

namespace ClassicZip

structure Entry where
  /-- The place in the directory, counted from zero. -/
  index : Nat
  name : ByteArray
  comment : ByteArray
  extra : ByteArray
  method : Method
  storedSize : UInt32
  size : UInt32
  crc : UInt32
  localOffset : UInt32
  modified : DosTime
  versionMadeBy : UInt16
  versionNeeded : UInt16
  flags : UInt16
  internalAttributes : UInt16
  externalAttributes : UInt32
  deriving DecidableEq

namespace Entry

/-- The host id of Unix, in the upper byte of the version that made an entry. -/
def hostUnix : UInt16 := 3

def ownVersion : UInt16 := hostUnix * 256 + 63

/-- Sizes and checksum follow the data in a descriptor. -/
def descriptorFlag : UInt16 := 8

def utf8Flag : UInt16 := 2048

def ofHeader (index : Nat) (header : DirectoryHeader) (name extra comment : ByteArray) :
    Entry where
  index := index
  name := name
  comment := comment
  extra := extra
  method := Method.ofId header.method
  storedSize := header.storedSize
  size := header.size
  crc := header.crc
  localOffset := header.localOffset
  modified := ⟨header.time, header.date⟩
  versionMadeBy := header.versionMadeBy
  versionNeeded := header.versionNeeded
  flags := header.flags
  internalAttributes := header.internalAttributes
  externalAttributes := header.externalAttributes

def directoryHeader (entry : Entry) : DirectoryHeader where
  versionMadeBy := entry.versionMadeBy
  versionNeeded := entry.versionNeeded
  flags := entry.flags
  method := entry.method.id
  time := entry.modified.time
  date := entry.modified.date
  crc := entry.crc
  storedSize := entry.storedSize
  size := entry.size
  nameLength := UInt16.ofNat entry.name.size
  extraLength := UInt16.ofNat entry.extra.size
  commentLength := UInt16.ofNat entry.comment.size
  startDisk := 0
  internalAttributes := entry.internalAttributes
  externalAttributes := entry.externalAttributes
  localOffset := entry.localOffset

def localHeader (entry : Entry) (extraLength : Nat) : LocalHeader where
  versionNeeded := entry.versionNeeded
  flags := entry.flags
  method := entry.method.id
  time := entry.modified.time
  date := entry.modified.date
  crc := entry.crc
  storedSize := entry.storedSize
  size := entry.size
  nameLength := UInt16.ofNat entry.name.size
  extraLength := UInt16.ofNat extraLength

def directoryBytes (entry : Entry) : ByteArray :=
  Bytes.le32 DirectoryHeader.signature ++ entry.directoryHeader.encode ++ entry.name ++
    entry.extra ++ entry.comment

/-- The size of the entry's listing, as its own length fields count it. -/
def directorySize (entry : Entry) : Nat :=
  DirectoryHeader.fixedSize + entry.directoryHeader.variableSize

/-- The name as text. It may be absolute or climb out of a directory, so it is no output path. -/
def nameText (entry : Entry) : String := Text.decodeLossy entry.name

/-- Type and permission bits, where the entry was made on Unix. -/
def unixMode? (entry : Entry) : Option UInt32 :=
  if entry.versionMadeBy >>> 8 = hostUnix then some (entry.externalAttributes >>> 16) else none

def extra? (entry : Entry) : Option ByteArray :=
  if entry.extra.size = 0 then none else some entry.extra

/-- A directory's name ends in a slash and it holds no data. -/
def isDirectory (entry : Entry) : Bool :=
  0 < entry.name.size && Bytes.byteAt entry.name (entry.name.size - 1) == 47 && entry.size == 0

end Entry

end ClassicZip
