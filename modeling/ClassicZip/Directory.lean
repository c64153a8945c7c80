import ClassicZip.Entry
import ClassicZip.Fault

/-!
# The central directory

An archive ends in its directory: one header for each entry, then the end record and the comment.
A reader searches the end record from the back of the archive. The bytes of a comment can look like
an end record, so the last place counts at which a record and the comment that it declares fit.
-/

namespace ClassicZip

open Bytes

namespace EndRecord

def at? (tail : ByteArray) (position : Nat) : Option EndRecord :=
  if position + fixedSize ≤ tail.size ∧ u32At tail position = signature then
    let record := decode (slice tail (position + 4) bodySize)
    if position + fixedSize + record.commentLength.toNat ≤ tail.size then some record else none
  else none

/-- The last end record that starts before `limit`. -/
def findBelow? (tail : ByteArray) : Nat → Option (Nat × EndRecord)
  | 0 => none
  | position + 1 =>
    match at? tail position with
    | some record => some (position, record)
    | none => findBelow? tail position

def find? (tail : ByteArray) : Option (Nat × EndRecord) := findBelow? tail tail.size

theorem findBelow?_eq_none_iff {tail : ByteArray} {limit : Nat} :
    findBelow? tail limit = none ↔ ∀ position < limit, at? tail position = none := by
  induction limit with
  | zero => simp [findBelow?]
  | succ limit ih =>
    unfold findBelow?
    constructor
    · intro h position hp
      split at h
      · contradiction
      · rename_i hnone
        rcases Nat.lt_succ_iff_lt_or_eq.mp hp with hlt | rfl
        · exact ih.mp h position hlt
        · exact hnone
    · intro h
      rw [h limit (Nat.lt_succ_self _)]
      exact ih.mpr fun position hp => h position (Nat.lt_succ_of_lt hp)

/-- The first field of what a 64-bit archive puts in front of its end record. -/
def locatorSignature : UInt32 := 0x07064b50

def locatorSize : Nat := 20

/-- A 64-bit archive's locator ends where the end record at `position` starts. -/
def hasLocatorBefore (tail : ByteArray) (position : Nat) : Bool :=
  locatorSize ≤ position && u32At tail (position - locatorSize) == locatorSignature

end EndRecord

namespace Entry

/-- The entry that the header under the cursor lists, and the cursor behind its listing. `base` is
where the cursor's buffer lies in the archive. -/
def take (base index : Nat) (cursor : Cursor) : Except Fault (Entry × Cursor) :=
  let offset := base + cursor.position
  let truncated (_ : ReadFault) : Fault := .truncated .directoryHeader offset
  do
    let (signature, atHeader) ← cursor.takeU32.mapError truncated
    if signature ≠ DirectoryHeader.signature then
      throw (.badSignature DirectoryHeader.signature signature offset)
    let (header, atName) ← atHeader.takeDirectoryHeader.mapError truncated
    let (name, atExtra) ← (atName.take header.nameLength.toNat).mapError truncated
    let (extra, atComment) ← (atExtra.take header.extraLength.toNat).mapError truncated
    let (comment, next) ← (atComment.take header.commentLength.toNat).mapError truncated
    return (ofHeader index header name extra comment, next)

def takeMany (base : Nat) : Nat → Cursor → Array Entry → Except Fault (Array Entry)
  | 0, _, entries => .ok entries
  | count + 1, cursor, entries =>
    match take base entries.size cursor with
    | .error fault => .error fault
    | .ok (entry, next) => takeMany base count next (entries.push entry)

end Entry

structure Directory where
  entries : Array Entry
  comment : ByteArray
  /-- Where the first header starts. -/
  offset : Nat
  /-- The length of the whole archive. -/
  imageSize : Nat
  deriving DecidableEq

namespace Directory

/-- The directory whose end record starts at `position` of the `tail` that ends the image. The
headers reach up to the end record, whatever size it declares for them. -/
def ofEndRecord (image tail : ByteArray) (position : Nat) (record : EndRecord) :
    Except Fault Directory :=
  let recordOffset := image.size - tail.size + position
  let offset := record.directoryOffset.toNat
  if recordOffset < offset then .error (.truncated .directory offset)
  else
    match Entry.takeMany offset record.entries.toNat
        (Cursor.ofBytes (slice image offset (recordOffset - offset))) #[] with
    | .error fault => .error fault
    | .ok entries => .ok {
        entries := entries
        comment := slice tail (position + EndRecord.fixedSize) record.commentLength.toNat
        offset := offset
        imageSize := image.size }

/-- The end of an image in which the end record can lie; of a short image this is all of it. -/
def tailOf (image : ByteArray) : ByteArray :=
  if image.size ≤ EndRecord.searchSpan then image
  else image.extract (image.size - EndRecord.searchSpan) image.size

theorem size_tailOf (image : ByteArray) :
    (tailOf image).size = min image.size EndRecord.searchSpan := by
  unfold tailOf
  split
  · omega
  · rw [ByteArray.size_extract]
    omega

def ofSearch (image tail : ByteArray) : Option (Nat × EndRecord) → Except Fault Directory
  | none => .error .endRecordNotFound
  | some (position, record) =>
    if record.hasSentinel && EndRecord.hasLocatorBefore tail position then
      .error (.oversize .endRecord)
    else ofEndRecord image tail position record

def read (image : ByteArray) : Except Fault Directory :=
  ofSearch image (tailOf image) (EndRecord.find? (tailOf image))

end Directory

end ClassicZip
