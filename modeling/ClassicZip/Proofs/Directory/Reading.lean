import ClassicZip.Proofs.Directory.Listing
import ClassicZip.Proofs.Directory.Search

/-!
# A written directory is read back

`read_encode`: an image that ends in the directory of some entries, laid out as a writer lays it
out, is read as just these entries with just this comment. What stands in front of the directory
does not matter. `read_ok` is the other direction: what was read can be written. `read_comment_iff`
says which comments come back.
-/

namespace ClassicZip

open Bytes

namespace EndRecord

def ofListing (entries : List Entry) (start : Nat) (comment : ByteArray) : EndRecord :=
  ofSingleDisk (UInt16.ofNat entries.length) (UInt32.ofNat (Entry.listing entries).size)
    (UInt32.ofNat start) (UInt16.ofNat comment.size)

/-- Of the values that stand for a longer one, an archive within the limits can only hold the one
for the largest number of entries. -/
theorem hasSentinel_ofListing {entries : List Entry} {start : Nat} {comment : ByteArray}
    (hle : entries.length ≤ maxLength)
    (hsize : start + (Entry.listing entries).size < maxOffset) :
    (ofListing entries start comment).hasSentinel = decide (entries.length = maxLength) := by
  have hcount : UInt16.ofNat entries.length = 0xFFFF ↔ entries.length = maxLength := by
    rw [← UInt16.toNat_inj, toNat_ofNat_of_le_maxLength hle]
    rfl
  have hoffset {offset : Nat} (ho : offset < maxOffset) : UInt32.ofNat offset ≠ 0xFFFFFFFF := fun h => by
    have := congrArg UInt32.toNat h
    rw [toNat_ofNat_of_le_maxOffset (Nat.le_of_lt ho)] at this
    exact absurd this (Nat.ne_of_lt ho)
  have hstart := hoffset (Nat.lt_of_le_of_lt (Nat.le_add_right _ _) hsize)
  have hlisting := hoffset (Nat.lt_of_le_of_lt (Nat.le_add_left _ _) hsize)
  simp [hasSentinel, ofListing, ofSingleDisk, hstart, hlisting, hcount, Bool.beq_eq_decide_eq]

end EndRecord

namespace Directory

def encode (entries : List Entry) (start : Nat) (comment : ByteArray) : ByteArray :=
  Entry.listing entries ++ (EndRecord.ofListing entries start comment).ending comment

@[simp] theorem size_encode (entries : List Entry) (start : Nat) (comment : ByteArray) :
    (encode entries start comment).size =
      (Entry.listing entries).size + (EndRecord.fixedSize + comment.size) := by
  simp [encode]

/-- What a directory can hold and give back. -/
structure Writable (entries : List Entry) (comment : ByteArray) : Prop where
  listable : ∀ entry ∈ entries, entry.Listable
  numbered : Entry.NumberedFrom 0 entries
  comment_le : comment.size ≤ maxLength

section
variable {entries : List Entry} {front comment : ByteArray}

theorem ofEndRecord_encode {tail near : ByteArray} (hw : Writable entries comment)
    (hfew : entries.length ≤ maxLength)
    (hsize : (front ++ encode entries front.size comment).size ≤ maxOffset)
    (htail : tail = near ++ (EndRecord.ofListing entries front.size comment).ending comment)
    (hnear : near.size ≤ front.size + (Entry.listing entries).size) :
    ofEndRecord (front ++ encode entries front.size comment) tail near.size
        (EndRecord.ofListing entries front.size comment) =
      .ok ⟨entries.toArray, comment, front.size,
        (front ++ encode entries front.size comment).size⟩ := by
  have hstart : (UInt32.ofNat front.size).toNat = front.size :=
    toNat_ofNat_of_le_maxOffset (by simp at hsize; omega)
  have hcount := toNat_ofNat_of_le_maxLength hfew
  have hcomment := toNat_ofNat_of_le_maxLength hw.comment_le
  have hrecord : (front ++ encode entries front.size comment).size - tail.size + near.size =
      front.size + (Entry.listing entries).size := by
    rw [htail]; simp; omega
  have hlisting : slice (front ++ encode entries front.size comment) front.size
      (Entry.listing entries).size = Entry.listing entries := slice_append_append _ _ _
  have hend : slice tail (near.size + EndRecord.fixedSize) comment.size = comment := by
    rw [htail, slice_append_right (Nat.le_add_right _ _), Nat.add_sub_cancel_left]
    simp only [EndRecord.ending, ← ByteArray.append_assoc]
    rw [slice_append_right (by simp [EndRecord.fixedSize])]
    simp [EndRecord.fixedSize, slice_eq_self]
  have hahead : (Cursor.ofBytes (Entry.listing entries)).Ahead
      (Entry.listing entries ++ ByteArray.empty) := by
    rw [ByteArray.append_empty]
    exact Cursor.ahead_ofBytes _
  have hmany := Entry.takeMany_listing front.size #[] hw.listable hw.numbered hahead
  simp only [ofEndRecord, EndRecord.ofListing, EndRecord.ofSingleDisk, hstart, hcount, hcomment,
    hrecord, Nat.add_sub_cancel_left, hlisting, hend, hmany]
  simp

/-- In front of the end record, as far as it is searched, stands what a 64-bit archive puts
there. -/
def HasLocator (image : ByteArray) (commentSize : Nat) : Prop :=
  EndRecord.hasLocatorBefore (tailOf image)
    ((tailOf image).size - (EndRecord.fixedSize + commentSize)) = true

instance (image : ByteArray) (commentSize : Nat) : Decidable (HasLocator image commentSize) := by
  unfold HasLocator
  infer_instance

theorem tailOf_encode (entries : List Entry) (front : ByteArray) {comment : ByteArray}
    (hc : comment.size ≤ maxLength) :
    ∃ before near, front ++ Entry.listing entries = before ++ near ∧
      front ++ encode entries front.size comment =
        before ++ (near ++ (EndRecord.ofListing entries front.size comment).ending comment) ∧
      tailOf (front ++ encode entries front.size comment) =
        near ++ (EndRecord.ofListing entries front.size comment).ending comment := by
  have hspan : ((EndRecord.ofListing entries front.size comment).ending comment).size ≤
      EndRecord.searchSpan := by
    rw [EndRecord.size_ending, EndRecord.searchSpan]
    exact Nat.add_le_add_left hc _
  obtain ⟨before, near, hfront, htail⟩ := tailOf_append (front ++ Entry.listing entries) hspan
  rw [encode, ← ByteArray.append_assoc]
  exact ⟨before, near, hfront, by rw [hfront, ByteArray.append_assoc], htail⟩

/-- An image that ends in a directory is read as just this directory, where no rival of its end
record is found. Only in front of the largest number of entries a locator counts. -/
theorem read_encode_of_unrivalled (hw : Writable entries comment)
    (hle : entries.length ≤ maxLength)
    (hsize : (front ++ encode entries front.size comment).size ≤ maxOffset)
    (hu : EndRecord.Unrivalled (front ++ encode entries front.size comment) comment.size) :
    read (front ++ encode entries front.size comment) =
      if entries.length = maxLength ∧
          HasLocator (front ++ encode entries front.size comment) comment.size then
        .error (.oversize .endRecord)
      else .ok ⟨entries.toArray, comment, front.size,
        (front ++ encode entries front.size comment).size⟩ := by
  obtain ⟨before, near, hfront, himage, htail⟩ := tailOf_encode entries front hw.comment_le
  obtain ⟨record, hr⟩ : ∃ record, record = EndRecord.ofListing entries front.size comment := ⟨_, rfl⟩
  have hcomment : comment.size = record.commentLength.toNat := by
    rw [hr]
    exact (toNat_ofNat_of_le_maxLength hw.comment_le).symm
  have hfind : EndRecord.find? (near ++ record.ending comment) = some (near.size, record) := by
    rw [himage, ← hr, EndRecord.unrivalled_append (by simp)] at hu
    exact EndRecord.find?_ending hcomment near hu
  have hnear : near.size ≤ front.size + (Entry.listing entries).size := by
    rw [← ByteArray.size_append, hfront, ByteArray.size_append]
    exact Nat.le_add_left _ _
  have hsentinel : record.hasSentinel = decide (entries.length = maxLength) := by
    rw [hr]
    refine EndRecord.hasSentinel_ofListing hle ?_
    rw [ByteArray.size_append, size_encode] at hsize
    have : 0 < EndRecord.fixedSize := by decide
    omega
  have hposition : (near ++ record.ending comment).size - (EndRecord.fixedSize + comment.size) =
      near.size := by
    simp
  rw [← hr] at htail
  simp only [read, HasLocator, htail, hfind, hposition, ofSearch, hsentinel, Bool.and_eq_true,
    decide_eq_true_eq]
  subst hr
  rw [ofEndRecord_encode hw hle hsize rfl hnear]

/-- An archive with few enough entries, in whose end record and comment the signature occurs only at
the start. -/
def Rereadable (image : ByteArray) (entryCount commentSize : Nat) : Prop :=
  entryCount < maxLength ∧ EndRecord.SoleSignature image commentSize

instance (image : ByteArray) (entryCount commentSize : Nat) :
    Decidable (Rereadable image entryCount commentSize) := by
  unfold Rereadable
  infer_instance

theorem read_encode (hw : Writable entries comment) (hfew : entries.length < maxLength)
    (hsize : (front ++ encode entries front.size comment).size ≤ maxOffset)
    (hs : EndRecord.SoleSignature (front ++ encode entries front.size comment) comment.size) :
    read (front ++ encode entries front.size comment) =
      .ok ⟨entries.toArray, comment, front.size,
        (front ++ encode entries front.size comment).size⟩ := by
  rw [read_encode_of_unrivalled hw (Nat.le_of_lt hfew) hsize hs.unrivalled,
    if_neg fun h => absurd h.1 (Nat.ne_of_lt hfew)]

theorem read_of_agree {image : ByteArray} (hw : Writable entries comment)
    (hfew : entries.length < maxLength)
    (hsize : (front ++ encode entries front.size comment).size ≤ maxOffset)
    (hs : EndRecord.SoleSignature (front ++ encode entries front.size comment) comment.size)
    (hsame : image.size = (front ++ encode entries front.size comment).size)
    (hb : ∀ index, front.size ≤ index →
      byteAt image index = byteAt (front ++ encode entries front.size comment) index) :
    read image = read (front ++ encode entries front.size comment) := by
  obtain ⟨other, hother, rfl⟩ := exists_front_of_agree hsame hb
  have hle : (other ++ encode entries other.size comment).size ≤ maxOffset := by
    rw [hother, hsame]
    exact hsize
  have hu : EndRecord.Unrivalled (other ++ encode entries other.size comment) comment.size := by
    rw [hother, EndRecord.unrivalled_append (by simp)]
    exact (EndRecord.unrivalled_append (by simp)).mp hs.unrivalled
  have hread := read_encode_of_unrivalled hw (Nat.le_of_lt hfew) hle hu
  rw [hother, hsame, if_neg fun h => absurd h.1 (Nat.ne_of_lt hfew)] at hread
  rw [hread, read_encode hw hfew hsize hs]

end

theorem ofEndRecord_ok {image tail : ByteArray} {position : Nat} {record : EndRecord}
    {directory : Directory} (ht : tail.size ≤ image.size)
    (hfit : position + EndRecord.fixedSize + record.commentLength.toNat ≤ tail.size)
    (h : ofEndRecord image tail position record = .ok directory) :
    directory.comment.size = record.commentLength.toNat ∧
      Writable directory.entries.toList directory.comment ∧ directory.imageSize = image.size ∧
      directory.offset +
        (encode directory.entries.toList directory.offset directory.comment).size ≤
          image.size := by
  unfold ofEndRecord at h
  dsimp only at h
  split at h
  · cases h
  · rename_i hoffset
    split at h
    · cases h
    · rename_i entries hmany
      obtain rfl := Except.ok.inj h
      have hslice : (slice image record.directoryOffset.toNat
          (image.size - tail.size + position - record.directoryOffset.toNat)).size =
            image.size - tail.size + position - record.directoryOffset.toNat :=
        size_slice (by omega)
      obtain ⟨entries, rfl, hl, hn, hsize⟩ := Entry.takeMany_ok (Cursor.ahead_ofBytes _) hmany
      have hcomment := size_slice hfit
      rw [hslice] at hsize
      refine ⟨hcomment, ⟨?_, ?_, ?_⟩, rfl, ?_⟩
      · simpa using hl
      · simpa using hn
      · exact Nat.le_trans (Nat.le_of_eq hcomment) (toNat_le_maxLength _)
      · simp [hcomment]
        omega

theorem size_tailOf_le (image : ByteArray) : (tailOf image).size ≤ image.size := by
  rw [size_tailOf]
  exact Nat.min_le_left _ _

theorem read_found {image : ByteArray} {directory : Directory} (h : read image = .ok directory) :
    ∃ position record, EndRecord.find? (tailOf image) = some (position, record) ∧
      ofEndRecord image (tailOf image) position record = .ok directory := by
  unfold read at h
  cases hfind : EndRecord.find? (tailOf image) with
  | none =>
    rw [hfind] at h
    cases h
  | some found =>
    rw [hfind] at h
    simp only [ofSearch] at h
    split at h
    · cases h
    · exact ⟨found.1, found.2, rfl, h⟩

/-- A directory that was read can be written, and takes no more room than it was read from. -/
theorem read_ok {image : ByteArray} {directory : Directory} (h : read image = .ok directory) :
    Writable directory.entries.toList directory.comment ∧ directory.imageSize = image.size ∧
      directory.offset +
        (encode directory.entries.toList directory.offset directory.comment).size ≤
          image.size := by
  obtain ⟨position, record, hfind, hrecord⟩ := read_found h
  exact (ofEndRecord_ok (size_tailOf_le _) (EndRecord.find?_fits hfind) hrecord).2

/-- The entries of an archive come from the headers that start at the directory's offset. Listed
again these are the same bytes, but for the disks on which the entries start. -/
theorem read_listed {image : ByteArray} {directory : Directory}
    (h : read image = .ok directory) :
    ∃ headers : List ListedHeader, (∀ listed ∈ headers, listed.Fits) ∧
      directory.entries.toList = headers.mapIdx (fun index listed => listed.entry index) ∧
      slice image directory.offset (ListedHeader.pack headers).size = ListedHeader.pack headers ∧
      Entry.listing directory.entries.toList =
        ListedHeader.pack (headers.map ListedHeader.onFirstDisk) := by
  obtain ⟨position, record, -, hrecord⟩ := read_found h
  unfold ofEndRecord at hrecord
  dsimp only at hrecord
  split at hrecord
  · cases hrecord
  · split at hrecord
    · cases hrecord
    · rename_i entries hmany
      obtain rfl := Except.ok.inj hrecord
      obtain ⟨headers, rest, -, hfits, hbytes, rfl⟩ :=
        (Entry.takeMany_eq_ok (Cursor.ahead_ofBytes _)).mp hmany
      have hlisting := Entry.listing_entries hfits 0
      simp only [Array.size_empty, Nat.zero_add] at hlisting ⊢
      exact ⟨headers, hfits, by simp, slice_of_append hbytes, by simpa using hlisting⟩

section
variable {entries : List Entry} {front comment : ByteArray}

end

end Directory

end ClassicZip
