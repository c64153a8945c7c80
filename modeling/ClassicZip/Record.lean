import ClassicZip.Cursor

/-!
# Fixed records of a classic archive

The local header in front of an entry's data, the header that lists the entry in the central
directory, and the record that ends the archive. Each stands here without its four signature
bytes. `encode` writes the fields in order and `decode` reads them back from the same places.
-/

namespace ClassicZip

open Bytes

/-- The largest length, and the largest number of entries, of the classic format. -/
def maxLength : Nat := 0xFFFF

def maxOffset : Nat := 0xFFFFFFFF

structure LocalHeader where
  versionNeeded : UInt16
  flags : UInt16
  method : UInt16
  time : UInt16
  date : UInt16
  crc : UInt32
  storedSize : UInt32
  size : UInt32
  nameLength : UInt16
  extraLength : UInt16
  deriving DecidableEq, Repr

namespace LocalHeader

def signature : UInt32 := 0x04034b50

/-- Bytes of the fields, without the signature. -/
def bodySize : Nat := 26

/-- Bytes in front of the name, with the signature. -/
def fixedSize : Nat := 4 + bodySize

def variableSize (header : LocalHeader) : Nat :=
  header.nameLength.toNat + header.extraLength.toNat

def encode (header : LocalHeader) : ByteArray :=
  le16 header.versionNeeded ++ le16 header.flags ++ le16 header.method ++ le16 header.time ++
    le16 header.date ++ le32 header.crc ++ le32 header.storedSize ++ le32 header.size ++
    le16 header.nameLength ++ le16 header.extraLength

def decode (bytes : ByteArray) : LocalHeader where
  versionNeeded := u16At bytes 0
  flags := u16At bytes 2
  method := u16At bytes 4
  time := u16At bytes 6
  date := u16At bytes 8
  crc := u32At bytes 10
  storedSize := u32At bytes 14
  size := u32At bytes 18
  nameLength := u16At bytes 22
  extraLength := u16At bytes 24

@[simp] theorem size_encode (header : LocalHeader) : header.encode.size = bodySize := by
  simp [encode, bodySize]

end LocalHeader

structure DirectoryHeader where
  versionMadeBy : UInt16
  versionNeeded : UInt16
  flags : UInt16
  method : UInt16
  time : UInt16
  date : UInt16
  crc : UInt32
  storedSize : UInt32
  size : UInt32
  nameLength : UInt16
  extraLength : UInt16
  commentLength : UInt16
  startDisk : UInt16
  internalAttributes : UInt16
  externalAttributes : UInt32
  localOffset : UInt32
  deriving DecidableEq, Repr

namespace DirectoryHeader

def signature : UInt32 := 0x02014b50

def bodySize : Nat := 42

def fixedSize : Nat := 4 + bodySize

def variableSize (header : DirectoryHeader) : Nat :=
  header.nameLength.toNat + header.extraLength.toNat + header.commentLength.toNat

def encode (header : DirectoryHeader) : ByteArray :=
  le16 header.versionMadeBy ++ le16 header.versionNeeded ++ le16 header.flags ++
    le16 header.method ++ le16 header.time ++ le16 header.date ++ le32 header.crc ++
    le32 header.storedSize ++ le32 header.size ++ le16 header.nameLength ++
    le16 header.extraLength ++ le16 header.commentLength ++ le16 header.startDisk ++
    le16 header.internalAttributes ++ le32 header.externalAttributes ++ le32 header.localOffset

def decode (bytes : ByteArray) : DirectoryHeader where
  versionMadeBy := u16At bytes 0
  versionNeeded := u16At bytes 2
  flags := u16At bytes 4
  method := u16At bytes 6
  time := u16At bytes 8
  date := u16At bytes 10
  crc := u32At bytes 12
  storedSize := u32At bytes 16
  size := u32At bytes 20
  nameLength := u16At bytes 24
  extraLength := u16At bytes 26
  commentLength := u16At bytes 28
  startDisk := u16At bytes 30
  internalAttributes := u16At bytes 32
  externalAttributes := u32At bytes 34
  localOffset := u32At bytes 38

@[simp] theorem size_encode (header : DirectoryHeader) : header.encode.size = bodySize := by
  simp [encode, bodySize]

end DirectoryHeader

structure EndRecord where
  disk : UInt16
  directoryDisk : UInt16
  entriesOnDisk : UInt16
  entries : UInt16
  directorySize : UInt32
  directoryOffset : UInt32
  commentLength : UInt16
  deriving DecidableEq, Repr

namespace EndRecord

def signature : UInt32 := 0x06054b50

def bodySize : Nat := 18

def fixedSize : Nat := 4 + bodySize

/-- How far before the end of an archive the record can start: the longest comment follows it. -/
def searchSpan : Nat := fixedSize + maxLength

def ofSingleDisk (entries : UInt16) (directorySize directoryOffset : UInt32)
    (commentLength : UInt16) : EndRecord where
  disk := 0
  directoryDisk := 0
  entriesOnDisk := entries
  entries := entries
  directorySize := directorySize
  directoryOffset := directoryOffset
  commentLength := commentLength

/-- Some field holds the value that sends a reader to the 64-bit extensions. -/
def hasSentinel (record : EndRecord) : Bool :=
  record.entries == 0xFFFF || record.directoryOffset == 0xFFFFFFFF ||
    record.directorySize == 0xFFFFFFFF

def encode (record : EndRecord) : ByteArray :=
  le16 record.disk ++ le16 record.directoryDisk ++ le16 record.entriesOnDisk ++
    le16 record.entries ++ le32 record.directorySize ++ le32 record.directoryOffset ++
    le16 record.commentLength

def decode (bytes : ByteArray) : EndRecord where
  disk := u16At bytes 0
  directoryDisk := u16At bytes 2
  entriesOnDisk := u16At bytes 4
  entries := u16At bytes 6
  directorySize := u32At bytes 8
  directoryOffset := u32At bytes 12
  commentLength := u16At bytes 16

@[simp] theorem size_encode (record : EndRecord) : record.encode.size = bodySize := by
  simp [encode, bodySize]

end EndRecord

namespace Cursor

def takeLocalHeader (cursor : Cursor) : Except ReadFault (LocalHeader × Cursor) :=
  match cursor.take LocalHeader.bodySize with
  | .ok (bytes, next) => .ok (LocalHeader.decode bytes, next)
  | .error fault => .error fault

def takeDirectoryHeader (cursor : Cursor) : Except ReadFault (DirectoryHeader × Cursor) :=
  match cursor.take DirectoryHeader.bodySize with
  | .ok (bytes, next) => .ok (DirectoryHeader.decode bytes, next)
  | .error fault => .error fault

def takeEndRecord (cursor : Cursor) : Except ReadFault (EndRecord × Cursor) :=
  match cursor.take EndRecord.bodySize with
  | .ok (bytes, next) => .ok (EndRecord.decode bytes, next)
  | .error fault => .error fault

end Cursor

end ClassicZip
