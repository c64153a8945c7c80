import Mathlib.Control.Monad.Basic
import ClassicZip.Proofs.Writer.Growth

/-!
# Archives that are closed as they were

A writer that adds nothing puts the directory back into the room of the old one, right up to the
old end, with zeros in front. This room reaches from the directory's offset to the end of the
image, so an entry is written over where its header or its data lie in it.
-/

namespace ClassicZip

open Bytes

namespace Directory

/-- Where the directory starts when it is written up to the old end. -/
def rewrittenStart (directory : Directory) : Nat :=
  directory.imageSize -
    (encode directory.entries.toList directory.offset directory.comment).size

def clearedFront (directory : Directory) (image : ByteArray) : ByteArray :=
  image.extract 0 directory.offset ++ zeros (directory.rewrittenStart - directory.offset)

def rewritten (directory : Directory) (image : ByteArray) : ByteArray :=
  directory.clearedFront image ++
    encode directory.entries.toList directory.rewrittenStart directory.comment

section
variable {directory : Directory} {image : ByteArray}

theorem rewrittenStart_spec (h : read image = .ok directory) :
    directory.offset ≤ directory.rewrittenStart ∧
      directory.rewrittenStart +
        (encode directory.entries.toList directory.rewrittenStart directory.comment).size =
          image.size := by
  obtain ⟨-, hsize, hfit⟩ := read_ok h
  simp only [rewrittenStart, hsize, size_encode] at hfit ⊢
  omega

theorem size_clearedFront (h : read image = .ok directory) :
    (directory.clearedFront image).size = directory.rewrittenStart := by
  obtain ⟨hle, hend⟩ := rewrittenStart_spec h
  rw [clearedFront, ByteArray.size_append, ByteArray.size_extract, size_zeros]
  omega

theorem size_rewritten (h : read image = .ok directory) :
    (directory.rewritten image).size = image.size := by
  rw [rewritten, ByteArray.size_append, size_clearedFront h, (rewrittenStart_spec h).2]

theorem rewritten_encode (entries : List Entry) (front comment : ByteArray) :
    rewritten ⟨entries.toArray, comment, front.size,
        (front ++ encode entries front.size comment).size⟩ (front ++ encode entries front.size comment) =
      front ++ encode entries front.size comment := by
  have hstart : rewrittenStart ⟨entries.toArray, comment, front.size,
      (front ++ encode entries front.size comment).size⟩ = front.size := by
    simp [rewrittenStart]
  simp only [rewritten, clearedFront, hstart, Nat.sub_self, zeros_zero, ByteArray.append_empty]
  rw [ByteArray.extract_append_eq_left rfl]

theorem read_rewritten (h : read image = .ok directory)
    (hfew : directory.entries.size < maxLength) (hsize : image.size ≤ maxOffset)
    (hs : EndRecord.SoleSignature (directory.rewritten image) directory.comment.size) :
    read (directory.rewritten image) =
      .ok { directory with offset := directory.rewrittenStart } := by
  obtain ⟨hw, himage, -⟩ := read_ok h
  have hfront := size_clearedFront h
  rw [← size_rewritten h] at hsize himage
  rw [rewritten, ← hfront] at hs hsize himage ⊢
  rw [read_encode hw hfew hsize hs, himage]

end

end Directory

namespace Draft

@[simp] theorem bodyEnd_goingOn (directory : Directory) :
    (goingOn directory).bodyEnd = directory.offset := if_pos rfl

theorem bodyEnd_goingOn_le {directory : Directory} {image : ByteArray}
    (hread : Directory.read image = .ok directory) :
    (goingOn directory).bodyEnd ≤ (goingOn directory).cursor := by
  obtain ⟨-, hstop, hfit⟩ := Directory.read_ok hread
  rw [bodyEnd_goingOn]
  show directory.offset ≤ directory.imageSize
  omega

/-- A trailer that fits into the room of the old one ends where that ended. -/
theorem closingStart_goingOn {directory : Directory} {image : ByteArray}
    (hread : Directory.read image = .ok directory) :
    (goingOn directory).closingStart = directory.rewrittenStart := by
  obtain ⟨-, hstop, hfit⟩ := Directory.read_ok hread
  rw [Directory.size_encode] at hfit
  simp only [closingStart, goingOn, trailerStart, Directory.rewrittenStart, Directory.size_encode,
    if_true]
  rw [if_pos (by omega)]

theorem finished_goingOn {directory : Directory} {image : ByteArray}
    (hread : Directory.read image = .ok directory) :
    (goingOn directory).finished image = directory.rewritten image := by
  rw [finished, closingFront, closingStart_goingOn hread, bodyEnd_goingOn]
  rfl

end Draft

namespace Directory

section
variable {directory : Directory} {image : ByteArray} {index : Nat}

theorem byteAt_rewritten_front (h : read image = .ok directory) (hi : index < directory.offset) :
    byteAt (directory.rewritten image) index = byteAt image index := by
  rw [← Draft.finished_goingOn h]
  exact Draft.byteAt_finished (Draft.fits_goingOn h).cursor_eq (Draft.bodyEnd_goingOn_le h)
    (by rwa [Draft.bodyEnd_goingOn])

theorem byteAt_rewritten_cleared (h : read image = .ok directory)
    (hfrom : directory.offset ≤ index) (hto : index < directory.rewrittenStart) :
    byteAt (directory.rewritten image) index = 0 := by
  rw [← Draft.finished_goingOn h]
  exact Draft.byteAt_finished_cleared (Draft.fits_goingOn h).cursor_eq (Draft.bodyEnd_goingOn_le h)
    (by rwa [Draft.bodyEnd_goingOn]) (by rwa [Draft.closingStart_goingOn h])

end

end Directory

namespace Writer

theorem toBytes_goingOn_iff {directory : Directory} {image bytes : ByteArray}
    (hread : Directory.read image = .ok directory) :
    toBytes ⟨.goingOn directory, some image⟩ = .ok bytes ↔
      directory.entries.size ≤ maxLength ∧ image.size ≤ maxOffset ∧
        bytes = directory.rewritten image := by
  rw [toBytes_ok (Draft.fits_goingOn hread).cursor_eq (Draft.bodyEnd_goingOn_le hread),
    Draft.finished_goingOn hread, Directory.size_rewritten hread]
  rfl

theorem toBytes_goingOn {directory : Directory} {image bytes : ByteArray}
    (hread : Directory.read image = .ok directory)
    (h : toBytes ⟨.goingOn directory, some image⟩ = .ok bytes) :
    bytes = directory.rewritten image ∧ image.size ≤ maxOffset := by
  obtain ⟨-, hsize, hbytes⟩ := (toBytes_goingOn_iff hread).mp h
  exact ⟨hbytes, hsize⟩

theorem toBytes_goingOn_of_le {directory : Directory} {image : ByteArray}
    (hread : Directory.read image = .ok directory) (hfew : directory.entries.size ≤ maxLength)
    (hsize : image.size ≤ maxOffset) :
    toBytes ⟨.goingOn directory, some image⟩ = .ok (directory.rewritten image) :=
  (toBytes_goingOn_iff hread).mpr ⟨hfew, hsize, rfl⟩

end Writer

-- ---------------------------------------------------------------------------
-- What becomes of the entries
-- ---------------------------------------------------------------------------

namespace Entry

section
variable {directory : Directory} {image stored : ByteArray} {entry : Entry} {here : LocalEntry}

theorem StoredAt.rewritten (hread : Directory.read image = .ok directory)
    (h : entry.StoredAt image here stored) (hend : entry.dataEnd here ≤ directory.offset) :
    entry.StoredAt (directory.rewritten image) here stored :=
  h.of_agree (Nat.le_of_eq (Directory.size_rewritten hread).symm) fun _ _ hi =>
    Directory.byteAt_rewritten_front hread (Nat.lt_of_lt_of_le hi hend)

theorem StoredAt.rewritten_iff (hread : Directory.read image = .ok directory)
    (h : entry.StoredAt image here stored)
    (hfront : entry.localOffset.toNat + LocalHeader.fixedSize ≤ directory.offset) :
    (∃ there, entry.StoredAt (directory.rewritten image) there stored) ↔
      slice (directory.rewritten image) here.dataOffset entry.storedSize.toNat = stored :=
  h.iff_of_header (Nat.le_of_eq (Directory.size_rewritten hread).symm) fun _ _ hi =>
    Directory.byteAt_rewritten_front hread (Nat.lt_of_lt_of_le hi hfront)

theorem StoredAt.byteAt_ne_zero (h : entry.StoredAt image here stored) {index : Nat}
    (hfrom : entry.localOffset.toNat ≤ index) (hto : index < entry.localOffset.toNat + 4) :
    byteAt image index ≠ 0 := by
  have hsig := congrArg UInt32.toNat h.signature_eq
  rw [toNat_u32At, show LocalHeader.signature.toNat = 0x04034b50 from rfl] at hsig
  have hlt (position : Nat) : (byteAt image position).toNat < 256 := (byteAt image position).toNat_lt
  intro hzero
  have hzero := congrArg UInt8.toNat hzero
  obtain ⟨k, rfl⟩ := Nat.exists_eq_add_of_le hfrom
  have hk : k = 0 ∨ k = 1 ∨ k = 2 ∨ k = 3 := by omega
  rcases hk with rfl | rfl | rfl | rfl <;> grind

theorem StoredAt.not_cleared (hread : Directory.read image = .ok directory)
    (h : entry.StoredAt (directory.rewritten image) here stored) {index : Nat}
    (hfrom : entry.localOffset.toNat ≤ index) (hto : index < entry.localOffset.toNat + 4) :
    index < directory.offset ∨ directory.rewrittenStart ≤ index := by
  rcases Nat.lt_or_ge index directory.offset with hlt | hge
  · exact .inl hlt
  · rcases Nat.lt_or_ge index directory.rewrittenStart with hcleared | hpast
    · exact absurd (Directory.byteAt_rewritten_cleared hread hge hcleared)
        (h.byteAt_ne_zero hfrom hto)
    · exact .inr hpast

end

end Entry

namespace Writer

/-- An archive that is closed again without a change lists the same entries. Of an entry that could
be read the same bytes are read just where the rewritten image still holds them. That is so for
each that ends in front of the old directory, and for none whose signature is cleared; where only
the header is in front of the directory, the data must have come through. -/
theorem readRaw_reclosed {image bytes : ByteArray} {old : Archive} {start : Writer}
    (hopen : Archive.ofBytes image = .ok old) (hstart : ofBytes image = .ok start)
    (hclose : start.toBytes = .ok bytes) :
    bytes = old.directory.rewritten image ∧
      (old.directory.entries.size < maxLength →
        EndRecord.SoleSignature bytes old.directory.comment.size →
        ∃ new, Archive.ofBytes bytes = .ok new ∧ new.entries = old.entries ∧
          new.comment = old.comment) ∧
      ∀ new entry here stored, Archive.ofBytes bytes = .ok new →
        entry.readStored image image.size = .ok (here, stored) →
        (new.readRaw entry = .ok stored ↔ ∃ there, entry.StoredAt bytes there stored) ∧
        (entry.dataEnd here ≤ old.directory.offset → new.readRaw entry = .ok stored) ∧
        (entry.localOffset.toNat + LocalHeader.fixedSize ≤ old.directory.offset →
          (new.readRaw entry = .ok stored ↔
            slice bytes here.dataOffset entry.storedSize.toNat = stored)) ∧
        (∀ index, old.directory.offset ≤ index → index < old.directory.rewrittenStart →
          entry.localOffset.toNat ≤ index → index < entry.localOffset.toNat + 4 →
          new.readRaw entry ≠ .ok stored) := by
  obtain ⟨directory, hread, rfl⟩ := Archive.ofBytes_ok.mp hopen
  rw [ofBytes_of_read hread] at hstart
  obtain rfl := Except.ok.inj hstart
  obtain ⟨rfl, hsize⟩ := toBytes_goingOn hread hclose
  refine ⟨rfl, ?_, ?_⟩
  · intro hfew hs
    obtain ⟨hnew, hon⟩ := Archive.on_of_read (Directory.read_rewritten hread hfew hsize hs)
    have hold := Archive.on_of_ofBytes hopen
    exact ⟨_, hnew, hon.entries_eq.trans hold.entries_eq.symm,
      hon.comment_eq.trans hold.comment_eq.symm⟩
  · intro new entry here stored hnew hstored
    have hon := Archive.on_of_ofBytes hnew
    have hstored := Entry.readStored_ok.mp hstored
    refine ⟨hon.readRaw_ok, ?_, ?_, ?_⟩
    · intro hend
      exact hon.readRaw_ok.mpr ⟨here, hstored.rewritten hread hend⟩
    · intro hfront
      exact hon.readRaw_ok.trans (hstored.rewritten_iff hread hfront)
    · intro index hfrom hto hlow hhigh hraw
      obtain ⟨there, hthere⟩ := hon.readRaw_ok.mp hraw
      have hcleared := hthere.not_cleared hread hlow hhigh
      dsimp only at hfrom hto
      omega

def lone : Parcel := .letter 0 "a" 47 0

def loneImage : ByteArray := Parcel.behindDirectory [lone] ByteArray.empty

theorem read_loneImage :
    Directory.read loneImage = .ok ⟨#[lone.entry], ByteArray.empty, 0, 101⟩ := by
  decide +kernel

theorem toBytes_loneImage :
    toBytes ⟨.goingOn ⟨#[lone.entry], ByteArray.empty, 0, 101⟩, some loneImage⟩ =
      .ok (Directory.rewritten ⟨#[lone.entry], ByteArray.empty, 0, 101⟩ loneImage) :=
  toBytes_goingOn_of_le read_loneImage (by decide) (by decide)

theorem readRaw_reclosed_lone :
    ∃ old start bytes, Archive.ofBytes loneImage = .ok old ∧ ofBytes loneImage = .ok start ∧
      start.toBytes = .ok bytes ∧ bytes = old.directory.rewritten loneImage ∧
      ∃ new, Archive.ofBytes bytes = .ok new ∧ new.entries = old.entries ∧
        new.comment = old.comment := by
  have hopen := (Archive.on_of_read read_loneImage).1
  have hstart := ofBytes_of_read read_loneImage
  obtain ⟨hbytes, hnew, -⟩ := readRaw_reclosed hopen hstart toBytes_loneImage
  exact ⟨_, _, _, hopen, hstart, toBytes_loneImage, hbytes,
    hnew (by decide) (by decide +kernel)⟩

/-- A lone entry behind its directory could be read, and is lost when the archive is closed again,
though nothing was changed. -/
theorem reclosed_loses_lone :
    ∃ start bytes old new, ofBytes loneImage = .ok start ∧ start.toBytes = .ok bytes ∧
      Archive.ofBytes loneImage = .ok old ∧ Archive.ofBytes bytes = .ok new ∧
      old.entries = .ok #[lone.entry] ∧ new.entries = .ok #[lone.entry] ∧
      old.readRaw lone.entry = .ok lone.stored ∧
      new.readRaw lone.entry ≠ .ok lone.stored := by
  have hnew : Directory.read
      (Directory.rewritten ⟨#[lone.entry], ByteArray.empty, 0, 101⟩ loneImage) =
        .ok ⟨#[lone.entry], ByteArray.empty, 32, 101⟩ := by
    decide +kernel
  refine ⟨_, _, _, _, ofBytes_of_read read_loneImage, toBytes_loneImage,
    (Archive.on_of_read read_loneImage).1, (Archive.on_of_read hnew).1, rfl, rfl, ?_, ?_⟩
  · decide +kernel
  · decide +kernel

end Writer

end ClassicZip
