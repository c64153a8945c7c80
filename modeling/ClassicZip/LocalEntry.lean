import ClassicZip.Codec.Coders
import ClassicZip.Crc32
import ClassicZip.Entry
import ClassicZip.Fault

/-!
# Entries in an image

The bytes of an archive are its image. An archive knows how long its image was when it was opened,
so a read past the end happens only if the image has shrunk since.

An entry's data lies behind its local header. The header's own lengths decide where, even where
its name length differs from the one in the directory. Sizes and checksum are taken from the
directory.
-/

namespace ClassicZip.Image

def read (image : ByteArray) (activity : Activity) (offset count : Nat) :
    Except Fault ByteArray :=
  if count = 0 ∨ offset + count ≤ image.size then .ok (Bytes.slice image offset count)
  else .error (.file activity offset .shortRead)

theorem read_eq_ok {image : ByteArray} {offset count : Nat} (activity : Activity)
    (h : offset + count ≤ image.size) :
    read image activity offset count = .ok (Bytes.slice image offset count) := by
  simp [read, h]

end ClassicZip.Image

namespace ClassicZip

/-- What only the local header tells of an entry. -/
structure LocalEntry where
  extra : ByteArray
  dataOffset : Nat

namespace Entry

def dataEnd (entry : Entry) (here : LocalEntry) : Nat :=
  here.dataOffset + entry.storedSize.toNat

/-- Finds an entry's data in an image that is, or was when it was opened, `size` bytes long. -/
def locate (image : ByteArray) (size : Nat) (entry : Entry) : Except Fault LocalEntry := do
  let offset := entry.localOffset.toNat
  if size < offset + LocalHeader.fixedSize then
    throw (.truncated .localHeader offset)
  let fixed ← Image.read image .readingLocalHeader offset LocalHeader.fixedSize
  let signature := Bytes.u32At fixed 0
  if signature ≠ LocalHeader.signature then
    throw (.badSignature LocalHeader.signature signature offset)
  let header := LocalHeader.decode (Bytes.slice fixed 4 LocalHeader.bodySize)
  let dataOffset := offset + LocalHeader.fixedSize + header.variableSize
  if size < dataOffset then
    throw (.truncated .localHeader offset)
  let extraLength := header.extraLength.toNat
  let extra ← Image.read image .readingLocalExtra (dataOffset - extraLength) extraLength
  return ⟨extra, dataOffset⟩

def readStored (image : ByteArray) (size : Nat) (entry : Entry) :
    Except Fault (LocalEntry × ByteArray) := do
  let here ← entry.locate image size
  if size < entry.dataEnd here then
    throw (.truncated .entryData here.dataOffset)
  let stored ← Image.read image .readingEntryData here.dataOffset entry.storedSize.toNat
  return (here, stored)

/-- The data of an entry from its stored bytes: it has the size and the checksum that the
directory gives. A directory has none. -/
def decode [Codec.Coders] (entry : Entry) (stored : ByteArray) : Except Fault ByteArray :=
  if entry.isDirectory then .ok ByteArray.empty
  else
    match Codec.decompress entry.method stored entry.size.toNat with
    | .error fault => .error fault
    | .ok data =>
      let actual := crc32 data
      if actual = entry.crc then .ok data
      else .error (.checksumMismatch entry.nameText entry.crc actual)

end Entry

end ClassicZip
