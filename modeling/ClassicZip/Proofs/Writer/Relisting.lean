import ClassicZip.Proofs.Directory.Reading
import ClassicZip.Proofs.Writer.Soundness

/-!
# The old directory in a new one

A session that only adds entries and sets the comment lists the old entries first. Their headers are
the old ones byte for byte where all entries start on the first disk; a disk number other than zero
is lost.
-/

namespace ClassicZip

open Bytes

namespace Writer

/-- What a session without deletions finishes is sound, and lists the old entries before the new. -/
theorem session_goingOn [Codec.Coders] {image : ByteArray} {directory : Directory} {writer : Writer}
    {calls done : List Call} (hread : Directory.read image = .ok directory)
    (hsession : session ⟨.goingOn directory, some image⟩ calls = (writer, done)) :
    ∃ after added, writer.image = some after ∧ writer.draft.Sound after ∧
      writer.draft.entries.toList = directory.entries.toList ++ added := by
  have hrun := run_session ⟨.goingOn directory, some image⟩ calls
  rw [hsession] at hrun
  obtain ⟨parcels, hgrown, -, -⟩ := run_ok (Draft.fits_goingOn hread) hrun
  exact ⟨_, _, hgrown.image_eq, hgrown.sound (Draft.sound_goingOn hread), hgrown.entries_eq⟩

/-- A session on an archive, whatever calls fail in it, finishes an archive whose directory starts
with the headers of the old one, in their order and with all their bytes but the number of the disk
on which the entry starts, which becomes zero. So these are the old bytes just where all the numbers
were zero. Where the end record is sure to be found, the directory is read from there. -/
theorem session_relisted [Codec.Coders] {image bytes : ByteArray} {start writer : Writer}
    {calls done : List Call} (hstart : ofBytes image = .ok start)
    (hsession : start.session calls = (writer, done)) (hclose : writer.toBytes = .ok bytes) :
    (image = ByteArray.empty ∧ start = fresh) ∨
      ∃ directory headers front more, Directory.read image = .ok directory ∧
        (∀ listed ∈ headers, listed.Fits) ∧
        directory.entries.toList = headers.mapIdx (fun index listed => listed.entry index) ∧
        slice image directory.offset (ListedHeader.pack headers).size =
          ListedHeader.pack headers ∧
        bytes = front ++ Directory.encode writer.draft.entries.toList front.size
          writer.draft.comment ∧
        Directory.encode writer.draft.entries.toList front.size writer.draft.comment =
          ListedHeader.pack (headers.map ListedHeader.onFirstDisk) ++ more ∧
        (slice bytes front.size (ListedHeader.pack headers).size =
            slice image directory.offset (ListedHeader.pack headers).size ↔
          ∀ listed ∈ headers, listed.header.startDisk = 0) ∧
        (Directory.Rereadable bytes writer.draft.entries.size writer.draft.comment.size →
          ∃ new, Directory.read bytes = .ok new ∧ new.offset = front.size) := by
  rcases ofBytes_ok hstart with ⟨rfl, rfl⟩ | ⟨directory, hread, rfl⟩
  · exact .inl ⟨rfl, rfl⟩
  · obtain ⟨after, added, himage, hsound, hentries⟩ := session_goingOn hread hsession
    obtain ⟨headers, hfits, hlisted, hbytes, hlisting⟩ := Directory.read_listed hread
    obtain ⟨draft, _⟩ := writer
    obtain rfl := himage
    obtain ⟨-, hsize, hfinished⟩ := hsound.toBytes_ok.mp hclose
    rw [hsound.finished_eq] at hsize hfinished
    generalize hfront : draft.closingFront after = front at hsize hfinished
    obtain ⟨more, hmore⟩ : ∃ more, Directory.encode draft.entries.toList front.size draft.comment =
        ListedHeader.pack (headers.map ListedHeader.onFirstDisk) ++ more := by
      refine ⟨Entry.listing added ++
        (EndRecord.ofListing draft.entries.toList front.size draft.comment).ending draft.comment, ?_⟩
      rw [Directory.encode, ← ByteArray.append_assoc, ← hlisting, ← Entry.listing_append, ← hentries]
    have hslice : slice bytes front.size (ListedHeader.pack headers).size =
        ListedHeader.pack (headers.map ListedHeader.onFirstDisk) := by
      rw [hfinished, hmore, ← ListedHeader.size_pack_onFirstDisk headers, slice_append_append]
    refine .inr ⟨directory, headers, front, more, hread, hfits, hlisted, hbytes, hfinished, hmore,
      ?_, ?_⟩
    · rw [hslice, hbytes, ListedHeader.pack_onFirstDisk_iff]
    · rintro ⟨hfew, hs⟩
      subst hfinished
      exact ⟨_, Directory.read_encode hsound.writable hfew hsize hs, rfl⟩

/-- The header of a lone file that starts on the second disk. -/
def secondDisk : ListedHeader where
  header := { (Parcel.letter 0 "a" 0 0).entry.directoryHeader with startDisk := 1 }
  name := "a".toUTF8
  extra := ByteArray.empty
  comment := ByteArray.empty

def secondDiskImage : ByteArray :=
  Parcel.pack [.letter 0 "a" 0 0] ++ (secondDisk.bytes ++
    (EndRecord.ofListing [(Parcel.letter 0 "a" 0 0).entry] 32 ByteArray.empty).ending
      ByteArray.empty)

def secondDiskDirectory : Directory where
  entries := #[(Parcel.letter 0 "a" 0 0).entry]
  comment := ByteArray.empty
  offset := 32
  imageSize := 101

theorem read_secondDiskImage : Directory.read secondDiskImage = .ok secondDiskDirectory := by
  decide +kernel

def addAnother : Call := .add (.file "b" ⟨#[120]⟩ { method := .store, modified := 0 })

theorem session_relisted_second_disk :
    ∃ writer bytes headers front more, ofBytes secondDiskImage =
        .ok ⟨.goingOn secondDiskDirectory, some secondDiskImage⟩ ∧
      session ⟨.goingOn secondDiskDirectory, some secondDiskImage⟩ [addAnother] =
        (writer, [addAnother]) ∧
      writer.toBytes = .ok bytes ∧
      slice secondDiskImage 32 (ListedHeader.pack headers).size = ListedHeader.pack headers ∧
      bytes = front ++ (ListedHeader.pack (headers.map ListedHeader.onFirstDisk) ++ more) := by
  have hstart := ofBytes_of_read read_secondDiskImage
  have hcheck : (session ⟨.goingOn secondDiskDirectory, some secondDiskImage⟩ [addAnother]).2 =
        [addAnother] ∧
      (session ⟨.goingOn secondDiskDirectory, some secondDiskImage⟩
        [addAnother]).1.toBytes.toOption.isSome := by
    decide +kernel
  obtain ⟨hdone, hclose⟩ := hcheck
  obtain ⟨bytes, hbytes⟩ := Option.isSome_iff_exists.mp hclose
  have hclose := toOption_eq_some.mp hbytes
  rcases session_relisted hstart (Prod.ext rfl hdone) hclose with ⟨hempty, -⟩ |
    ⟨directory, headers, front, more, hread, -, -, hold, hnew, hmore, -⟩
  · exact absurd hempty (by decide +kernel)
  · obtain rfl := Except.ok.inj (hread.symm.trans read_secondDiskImage)
    rw [hmore] at hnew
    exact ⟨_, bytes, headers, front, more, hstart, Prod.ext rfl hdone, hclose, hold, hnew⟩

/-- To take up an archive and to close it again moves its entry to the first disk. -/
theorem relisted_loses_disk :
    ∃ start bytes new, ofBytes secondDiskImage = .ok start ∧ start.toBytes = .ok bytes ∧
      Directory.read secondDiskImage = .ok secondDiskDirectory ∧
      slice secondDiskImage secondDiskDirectory.offset secondDisk.bytes.size = secondDisk.bytes ∧
      Directory.read bytes = .ok new ∧
      slice bytes new.offset secondDisk.bytes.size = secondDisk.onFirstDisk.bytes ∧
      secondDisk.onFirstDisk.bytes ≠ secondDisk.bytes := by
  have hnew : Directory.read (secondDiskDirectory.rewritten secondDiskImage) =
      .ok secondDiskDirectory := by
    decide +kernel
  refine ⟨_, _, secondDiskDirectory, ofBytes_of_read read_secondDiskImage,
    toBytes_goingOn_of_le read_secondDiskImage (by decide) (by decide), read_secondDiskImage, ?_,
    hnew, ?_, ?_⟩
  · decide +kernel
  · decide +kernel
  · decide +kernel

end Writer

end ClassicZip
