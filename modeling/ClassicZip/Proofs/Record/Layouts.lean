import ClassicZip.Proofs.Cursor.Ahead

/-!
# Records and their bytes

All fixed records are read off a cursor in one way: their bytes are taken, and decoded. A kind of
record whose `encode` and `decode` undo each other is the same as its bytes, wherever they stand:
`layouts_exact` says so of the three records of an archive.
-/

namespace ClassicZip

open Bytes

namespace Cursor

def takeRecord {α : Type} (size : Nat) (decode : ByteArray → α) (cursor : Cursor) :
    Except ReadFault (α × Cursor) :=
  match cursor.take size with
  | .ok (bytes, next) => .ok (decode bytes, next)
  | .error fault => .error fault

theorem takeLocalHeader_eq :
    takeLocalHeader = takeRecord LocalHeader.bodySize LocalHeader.decode := rfl

theorem takeDirectoryHeader_eq :
    takeDirectoryHeader = takeRecord DirectoryHeader.bodySize DirectoryHeader.decode := rfl

theorem takeEndRecord_eq : takeEndRecord = takeRecord EndRecord.bodySize EndRecord.decode := rfl

theorem takeRecord_append {α : Type} {size : Nat} (decode : ByteArray → α) {part : ByteArray}
    (h : part.size = size) (front behind : ByteArray) :
    takeRecord size decode ⟨front ++ part ++ behind, front.size⟩ =
      .ok (decode part, ⟨front ++ part ++ behind, front.size + size⟩) := by
  subst h
  refine decode_taken_ok.mpr ⟨part, take_ok.mpr ⟨?_, ?_, rfl⟩, rfl⟩
  · simp
  · rw [ByteArray.append_assoc, slice_append_append]

end Cursor

/-- Reading undoes writing, and writing undoes reading: `take` gives back every value from its
bytes, and is `size` bytes further on then; and every `size` bytes are those of the value that is
read from them. What stands around them does not matter. -/
structure ReadsBack {α : Type} (size : Nat) (encode : α → ByteArray)
    (take : Cursor → Except ReadFault (α × Cursor)) : Prop where
  take_encode : ∀ value front behind, take ⟨front ++ encode value ++ behind, front.size⟩ =
    .ok (value, ⟨front ++ encode value ++ behind, front.size + size⟩)
  encode_take : ∀ part front behind, part.size = size →
    ∃ value, take ⟨front ++ part ++ behind, front.size⟩ =
      .ok (value, ⟨front ++ part ++ behind, front.size + size⟩) ∧ encode value = part

theorem readsBack_takeRecord {α : Type} {size : Nat} {encode : α → ByteArray}
    {decode : ByteArray → α} (hsize : ∀ value, (encode value).size = size)
    (hvalue : ∀ value, decode (encode value) = value)
    (hbytes : ∀ bytes : ByteArray, bytes.size = size → encode (decode bytes) = bytes) :
    ReadsBack size encode (Cursor.takeRecord size decode) where
  take_encode value front behind := by
    rw [Cursor.takeRecord_append decode (hsize value), hvalue]
  encode_take part front behind hpart :=
    ⟨decode part, Cursor.takeRecord_append decode hpart front behind, hbytes part hpart⟩

/-- Local headers, directory headers and end records are the same as their bytes, which are the
fixed bytes of the record behind its signature. -/
theorem layouts_exact :
    (ReadsBack 26 LocalHeader.encode Cursor.takeLocalHeader ∧
      LocalHeader.fixedSize = (le32 LocalHeader.signature).size + 26) ∧
    (ReadsBack 42 DirectoryHeader.encode Cursor.takeDirectoryHeader ∧
      DirectoryHeader.fixedSize = (le32 DirectoryHeader.signature).size + 42) ∧
    (ReadsBack 18 EndRecord.encode Cursor.takeEndRecord ∧
      EndRecord.fixedSize = (le32 EndRecord.signature).size + 18) := by
  have hlocal := readsBack_takeRecord LocalHeader.size_encode LocalHeader.decode_encode
    fun _ => LocalHeader.encode_decode
  have hdirectory := readsBack_takeRecord DirectoryHeader.size_encode DirectoryHeader.decode_encode
    fun _ => DirectoryHeader.encode_decode
  have hend := readsBack_takeRecord EndRecord.size_encode EndRecord.decode_encode
    fun _ => EndRecord.encode_decode
  rw [Cursor.takeLocalHeader_eq, Cursor.takeDirectoryHeader_eq, Cursor.takeEndRecord_eq]
  exact ⟨⟨hlocal, rfl⟩, ⟨hdirectory, rfl⟩, ⟨hend, rfl⟩⟩

end ClassicZip
