import ClassicZip.Codec.Coders
import ClassicZip.Crc32
import ClassicZip.Entry
import ClassicZip.Extra

/-!
# New entries

The options of a new entry, and the entry that a file or a directory becomes under them. Its place
in the archive is settled when it is written.
-/

namespace ClassicZip

structure EntryOptions where
  method : Method := .deflate
  /-- The data starts at a multiple of this, unless it is zero. -/
  alignment : UInt16 := 0
  /-- How hard to compress; each method has its own default. -/
  level : Option Int := none
  /-- The modification time in Unix seconds. -/
  modified : Int
  /-- Unix permission bits; files and directories have their own defaults. -/
  permissions : Option UInt32 := none
  deriving DecidableEq

namespace EntryOptions

def defaultFilePermissions : UInt32 := 0o644

def defaultDirectoryPermissions : UInt32 := 0o755

def withPermissions (options : EntryOptions) (mode : UInt32) : EntryOptions :=
  { options with permissions := some (mode &&& 0o7777) }

end EntryOptions

namespace Entry

def regularFile : UInt32 := 0o100000

def directoryFile : UInt32 := 0o040000

def dosDirectory : UInt32 := 0x10

def isAscii (name : ByteArray) : Bool := name.foldl (fun ascii byte => ascii && byte < 0x80) true

def ofOptions (name : ByteArray) (options : EntryOptions) : Entry where
  index := 0
  name := name
  comment := ByteArray.empty
  extra := ByteArray.empty
  method := options.method
  storedSize := 0
  size := 0
  crc := crc32 ByteArray.empty
  localOffset := 0
  modified := DosTime.ofUnix options.modified
  versionMadeBy := ownVersion
  versionNeeded := options.method.versionNeeded
  flags := if isAscii name then 0 else utf8Flag
  internalAttributes := 0
  externalAttributes := 0

def ofFile [Codec.Coders] (name : String) (data : ByteArray) (options : EntryOptions) :
    Except Fault (Entry × ByteArray) :=
  if options.alignment ≠ 0 ∧ ¬ Alignment.isPowerOfTwo options.alignment then
    .error (.badAlignment options.alignment)
  else if maxOffset < data.size then .error (.oversize (.data name data.size))
  else
    match Codec.compress options.method options.level data with
    | .error fault => .error fault
    | .ok stored =>
      if maxOffset < stored.size then .error (.oversize (.storedData name stored.size))
      else
        let mode := regularFile ||| options.permissions.getD EntryOptions.defaultFilePermissions
        .ok ({ ofOptions name.toUTF8 options with
          crc := crc32 data
          storedSize := UInt32.ofNat stored.size
          size := UInt32.ofNat data.size
          externalAttributes := mode <<< 16 }, stored)

def slash : UInt8 := 47

def directoryName (name : String) : ByteArray :=
  let bytes := name.toUTF8
  if 0 < bytes.size ∧ Bytes.byteAt bytes (bytes.size - 1) = slash then bytes else bytes.push slash

/-- A new directory entry. Of the options only time and permissions count. -/
def ofDirectory (name : String) (options : EntryOptions) : Entry :=
  let mode := directoryFile ||| options.permissions.getD EntryOptions.defaultDirectoryPermissions
  { ofOptions (directoryName name) { options with method := .store } with
    externalAttributes := mode <<< 16 ||| dosDirectory }

end Entry

end ClassicZip
