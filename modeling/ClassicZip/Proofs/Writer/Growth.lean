import ClassicZip.Proofs.Writer.Parcels

/-!
# Images only grow

A draft fits its image when its cursor stands at the image's end and its entries can be listed.
A successful `push` keeps this and appends one parcel; a run of them appends a pack. The trailer of
a draft to which something was added is appended as well.
-/

namespace ClassicZip

open Bytes

-- ---------------------------------------------------------------------------
-- Starting
-- ---------------------------------------------------------------------------

/-- The draft goes on at the end of the image, and its directory can be written. -/
structure Draft.Fits (draft : Draft) (image : ByteArray) : Prop where
  writable : Directory.Writable draft.entries.toList draft.comment
  cursor_eq : draft.cursor = image.size

def Draft.goingOn (directory : Directory) : Draft where
  entries := directory.entries
  cursor := directory.imageSize
  comment := directory.comment
  oldTrailer := some ⟨directory.offset, directory.imageSize⟩

theorem Draft.fits_empty : Draft.empty.Fits ByteArray.empty where
  writable := ⟨by simp [empty], by simp [empty, Entry.NumberedFrom], Nat.zero_le _⟩
  cursor_eq := rfl

theorem Draft.fits_goingOn {image : ByteArray} {directory : Directory}
    (h : Directory.read image = .ok directory) : (goingOn directory).Fits image where
  writable := (Directory.read_ok h).1
  cursor_eq := (Directory.read_ok h).2.1

theorem Writer.ofBytes_ok {image : ByteArray} {writer : Writer}
    (h : ofBytes image = .ok writer) :
    (image = ByteArray.empty ∧ writer = fresh) ∨
      ∃ directory, Directory.read image = .ok directory ∧
        writer = ⟨.goingOn directory, some image⟩ := by
  simp only [ofBytes, Draft.ofImage] at h
  by_cases hempty : image.size = 0
  · obtain rfl := ByteArray.size_eq_zero_iff.mp hempty
    simp only [ByteArray.size_empty, if_true] at h
    exact .inl ⟨rfl, (Except.ok.inj h).symm⟩
  · simp only [hempty, if_false] at h
    cases hr : Directory.read image with
    | error fault =>
      rw [hr] at h
      cases h
    | ok directory =>
      rw [hr] at h
      exact .inr ⟨directory, rfl, (Except.ok.inj h).symm⟩

theorem Writer.ofBytes_eq_error {image : ByteArray} {fault : Fault} (hpos : image.size ≠ 0) :
    ofBytes image = .error fault ↔ Directory.read image = .error fault := by
  cases h : Directory.read image <;> simp [ofBytes, Draft.ofImage, hpos, h]

theorem Writer.ofBytes_fits {image : ByteArray} {writer : Writer}
    (h : ofBytes image = .ok writer) : ∃ draft, writer = ⟨draft, some image⟩ ∧ draft.Fits image := by
  rcases ofBytes_ok h with ⟨rfl, rfl⟩ | ⟨directory, hread, rfl⟩
  · exact ⟨.empty, rfl, Draft.fits_empty⟩
  · exact ⟨.goingOn directory, rfl, Draft.fits_goingOn hread⟩

theorem Draft.ofImage_of_read {image : ByteArray} {directory : Directory}
    (h : Directory.read image = .ok directory) : ofImage image = .ok (.goingOn directory) := by
  have hpos : image.size ≠ 0 := by
    have hfit := (Directory.read_ok h).2.2
    rw [Directory.size_encode, EndRecord.fixedSize] at hfit
    omega
  rw [ofImage, if_neg hpos, h]
  rfl

theorem Writer.ofBytes_of_read {image : ByteArray} {directory : Directory}
    (h : Directory.read image = .ok directory) :
    ofBytes image = .ok ⟨.goingOn directory, some image⟩ := by
  rw [ofBytes, Draft.ofImage_of_read h]

-- ---------------------------------------------------------------------------
-- One push
-- ---------------------------------------------------------------------------

theorem Draft.place_ok {draft : Draft} {entry : Entry} {localExtra : ByteArray}
    {alignment : UInt16} {storedSize : Nat} {placement : Placement}
    (h : draft.place entry localExtra alignment storedSize = .ok placement) :
    entry.name.size ≤ maxLength ∧ draft.entries.size < maxLength ∧
      (draft.paddedExtra entry localExtra alignment).size ≤ maxLength ∧
      draft.cursor ≤ maxOffset ∧
      placement = ⟨{ entry with
          index := draft.entries.size
          localOffset := UInt32.ofNat draft.cursor }, draft.cursor,
        headerBytes entry (draft.paddedExtra entry localExtra alignment)⟩ := by
  simp only [place] at h
  split at h
  · cases h
  · split at h
    · cases h
    · split at h
      · cases h
      · split at h
        · cases h
        · exact ⟨by omega, by omega, by omega, by omega, (Except.ok.inj h).symm⟩

theorem Placement.write_eq {placement : Placement} {image stored : ByteArray}
    (h : placement.offset = image.size) :
    placement.write stored image = image ++ (placement.header ++ stored) := by
  rw [Placement.write, h, overwrite_size, ← ByteArray.size_append, overwrite_size,
    ByteArray.append_assoc]

namespace Parcel

/-- The parcel that `push` writes: the entry gets its place, the extra field its padding. -/
def ofPush (draft : Draft) (entry : Entry) (localExtra : ByteArray) (alignment : UInt16)
    (stored : ByteArray) : Parcel where
  entry := { entry with
    index := draft.entries.size
    localOffset := UInt32.ofNat draft.cursor }
  extra := draft.paddedExtra entry localExtra alignment
  stored := stored

end Parcel

/-- The writer is what became of `draft` and `image` when the parcels were added. -/
structure Writer.Grown (draft : Draft) (image : ByteArray) (parcels : List Parcel)
    (writer : Writer) : Prop where
  image_eq : writer.image = some (image ++ Parcel.pack parcels)
  entries_eq : writer.draft.entries.toList =
    draft.entries.toList ++ parcels.map (·.entry)
  packed : Parcel.Packed image.size parcels
  fits : writer.draft.Fits (image ++ Parcel.pack parcels)
  oldTrailer_eq : writer.draft.oldTrailer = draft.oldTrailer

namespace Writer

theorem Grown.refl {draft : Draft} {image : ByteArray} (hf : draft.Fits image) :
    Grown draft image [] ⟨draft, some image⟩ where
  image_eq := by simp
  entries_eq := by simp
  packed := trivial
  fits := by simpa using hf
  oldTrailer_eq := rfl

theorem Grown.trans {draft middle : Draft} {image : ByteArray} {front back : List Parcel}
    {writer : Writer}
    (hfront : Grown draft image front ⟨middle, some (image ++ Parcel.pack front)⟩)
    (hback : Grown middle (image ++ Parcel.pack front) back writer) :
    Grown draft image (front ++ back) writer where
  image_eq := by rw [hback.image_eq, Parcel.pack_append, ByteArray.append_assoc]
  entries_eq := by
    rw [hback.entries_eq, hfront.entries_eq, List.map_append, List.append_assoc]
  packed := Parcel.packed_append.mpr ⟨hfront.packed, by simpa using hback.packed⟩
  fits := by
    rw [Parcel.pack_append, ← ByteArray.append_assoc]
    exact hback.fits
  oldTrailer_eq := hback.oldTrailer_eq.trans hfront.oldTrailer_eq

theorem push_ok {draft : Draft} {image localExtra stored : ByteArray} {entry : Entry}
    {alignment : UInt16} {writer : Writer} (hf : draft.Fits image)
    (hl : entry.name.size ≤ maxLength → entry.Listable)
    (hs : entry.storedSize.toNat = stored.size)
    (h : push ⟨draft, some image⟩ entry localExtra alignment stored = (writer, .ok ())) :
    Grown draft image [Parcel.ofPush draft entry localExtra alignment stored] writer ∧
      writer.draft.comment = draft.comment := by
  simp only [push] at h
  split at h
  · cases h
  · rename_i placement hplace
    obtain ⟨hname, hcount, hextra, hcursor, rfl⟩ := Draft.place_ok hplace
    obtain ⟨rfl, -⟩ := Prod.mk.inj h
    have hoffset : (UInt32.ofNat draft.cursor).toNat = image.size := by
      rw [toNat_ofNat_of_le_maxOffset hcursor, hf.cursor_eq]
    have hnew := hl hname
    refine ⟨⟨?_, ?_, ⟨⟨hoffset, hs, hname, hextra⟩, trivial⟩, ⟨⟨?_, ?_, ?_⟩, ?_⟩, rfl⟩, rfl⟩
    · rw [Placement.write_eq hf.cursor_eq]
      simp [Parcel.bytes, Parcel.ofPush, Draft.headerBytes, Entry.localHeader]
    · simp [Draft.add, Parcel.ofPush]
    · intro other ho
      simp only [Draft.add, Array.toList_push, List.mem_append, List.mem_singleton] at ho
      rcases ho with ho | rfl
      · exact hf.writable.listable other ho
      · exact ⟨hname, hnew.extra_le, hnew.comment_le, hnew.method_eq⟩
    · simp only [Draft.add, Array.toList_push, Entry.numberedFrom_append]
      exact ⟨hf.writable.numbered, by simp [Entry.NumberedFrom]⟩
    · exact hf.writable.comment_le
    · simp [Draft.add, Parcel.bytes, Parcel.ofPush, hf.cursor_eq, Draft.headerBytes,
        Entry.localHeader, Nat.add_assoc]

end Writer

-- ---------------------------------------------------------------------------
-- The trailer
-- ---------------------------------------------------------------------------

theorem Draft.directoryBytes_eq (draft : Draft) :
    draft.directoryBytes = Entry.listing draft.entries.toList := by
  rw [directoryBytes, ← Array.foldl_toList, foldl_append_eq_concat, ByteArray.empty_append]
  rfl

namespace Draft

/-- Where the trailer goes at the earliest: into the room of the old one, as long as nothing was
written behind that. -/
def bodyEnd (draft : Draft) : Nat :=
  match draft.oldTrailer with
  | none => draft.cursor
  | some old => if draft.cursor = old.stop then old.start else draft.cursor

def closingStart (draft : Draft) : Nat :=
  draft.trailerStart (Directory.encode draft.entries.toList 0 draft.comment).size

/-- What the finished archive has in front of its directory: zeros fill the room of an old trailer
up to the new one. -/
def closingFront (draft : Draft) (image : ByteArray) : ByteArray :=
  image.extract 0 draft.bodyEnd ++ zeros (draft.closingStart - draft.bodyEnd)

def finished (draft : Draft) (image : ByteArray) : ByteArray :=
  draft.closingFront image ++
    Directory.encode draft.entries.toList draft.closingStart draft.comment

section
variable {draft : Draft} {image : ByteArray}

theorem bodyEnd_cases (draft : Draft) :
    (draft.bodyEnd = draft.cursor ∧ (∀ length, draft.trailerStart length = draft.cursor) ∧
      ∀ start, draft.clearRange start = (start, 0)) ∨
    (∃ old, draft.oldTrailer = some old ∧ draft.cursor = old.stop ∧ draft.bodyEnd = old.start ∧
      (∀ length, draft.trailerStart length =
        if length ≤ old.stop - old.start then old.stop - length else old.start) ∧
      ∀ start, draft.clearRange start = (old.start, start - old.start)) := by
  cases hold : draft.oldTrailer with
  | none => exact .inl (by simp [bodyEnd, trailerStart, clearRange, hold])
  | some old =>
    by_cases hstop : draft.cursor = old.stop
    · exact .inr ⟨old, by simp [bodyEnd, trailerStart, clearRange, hold, hstop]⟩
    · exact .inl (by simp [bodyEnd, trailerStart, clearRange, hold, hstop])

theorem bodyEnd_of_behind
    (ho : ∀ old, draft.oldTrailer = some old → draft.cursor ≠ old.stop) :
    draft.bodyEnd = draft.cursor := by
  rcases draft.bodyEnd_cases with ⟨hbody, -⟩ | ⟨old, hold, hstop, -⟩
  · exact hbody
  · exact absurd hstop (ho old hold)

theorem closingStart_spec (hbody : draft.bodyEnd ≤ draft.cursor) :
    draft.bodyEnd ≤ draft.closingStart ∧ draft.closingStart ≤ draft.cursor ∧
      draft.cursor ≤ draft.closingStart +
        (Directory.encode draft.entries.toList draft.closingStart draft.comment).size := by
  rw [Directory.size_encode, ← Directory.size_encode draft.entries.toList 0, closingStart]
  rcases draft.bodyEnd_cases with ⟨hcursor, hstart, -⟩ | ⟨old, -, hstop, hroom, hstart, -⟩
  · rw [hstart, hcursor]
    exact ⟨Nat.le_refl _, Nat.le_refl _, Nat.le_add_right _ _⟩
  · rw [hstart, hroom, hstop]
    rw [hroom, hstop] at hbody
    split <;> omega

theorem clearRange_closingStart :
    draft.clearRange draft.closingStart =
      (draft.bodyEnd, draft.closingStart - draft.bodyEnd) := by
  rcases draft.bodyEnd_cases with ⟨hcursor, hstart, hclear⟩ | ⟨old, -, -, hroom, -, hclear⟩
  · rw [hclear, closingStart, hstart, hcursor, Nat.sub_self]
  · rw [hclear, hroom]

theorem size_closingFront (hcursor : draft.cursor = image.size)
    (hbody : draft.bodyEnd ≤ draft.cursor) :
    (draft.closingFront image).size = draft.closingStart := by
  obtain ⟨hle, hstart, -⟩ := closingStart_spec hbody
  rw [closingFront, ByteArray.size_append, ByteArray.size_extract, size_zeros]
  omega

theorem size_finished (hcursor : draft.cursor = image.size)
    (hbody : draft.bodyEnd ≤ draft.cursor) :
    (draft.finished image).size = draft.closingStart +
      (Directory.encode draft.entries.toList draft.closingStart draft.comment).size := by
  rw [finished, ByteArray.size_append, size_closingFront hcursor hbody]

theorem byteAt_finished (hcursor : draft.cursor = image.size)
    (hbody : draft.bodyEnd ≤ draft.cursor) {index : Nat} (hi : index < draft.bodyEnd) :
    byteAt (draft.finished image) index = byteAt image index := by
  have hsize : (image.extract 0 draft.bodyEnd).size = draft.bodyEnd := by
    rw [ByteArray.size_extract]
    omega
  rw [finished, closingFront, ByteArray.append_assoc, byteAt_append_left (by omega),
    byteAt_extract (by omega), Nat.zero_add]

theorem byteAt_finished_cleared (hcursor : draft.cursor = image.size)
    (hbody : draft.bodyEnd ≤ draft.cursor) {index : Nat} (hfrom : draft.bodyEnd ≤ index)
    (hto : index < draft.closingStart) : byteAt (draft.finished image) index = 0 := by
  have hsize : (image.extract 0 draft.bodyEnd).size = draft.bodyEnd := by
    rw [ByteArray.size_extract]
    omega
  rw [finished, closingFront, ByteArray.append_assoc, byteAt_append_right (by omega),
    byteAt_append_left (by rw [size_zeros]; omega), byteAt_zeros]

theorem trailer_ok {trailer : Trailer} :
    draft.trailer = .ok trailer ↔
      draft.entries.size ≤ maxLength ∧
        draft.closingStart +
          (Directory.encode draft.entries.toList draft.closingStart draft.comment).size ≤
            maxOffset ∧
        trailer = ⟨draft.closingStart,
          Directory.encode draft.entries.toList draft.closingStart draft.comment,
          draft.bodyEnd, draft.closingStart - draft.bodyEnd⟩ := by
  have hlength : (Entry.listing draft.entries.toList).size + EndRecord.fixedSize +
      draft.comment.size = (Directory.encode draft.entries.toList 0 draft.comment).size := by
    rw [Directory.size_encode, Nat.add_assoc]
  have hbytes : Entry.listing draft.entries.toList ++ le32 EndRecord.signature ++
      (EndRecord.ofSingleDisk (UInt16.ofNat draft.entries.size)
        (UInt32.ofNat (Entry.listing draft.entries.toList).size)
        (UInt32.ofNat draft.closingStart) (UInt16.ofNat draft.comment.size)).encode ++
        draft.comment =
      Directory.encode draft.entries.toList draft.closingStart draft.comment := by
    simp only [Directory.encode, EndRecord.ending, EndRecord.ofListing, Array.length_toList,
      ByteArray.append_assoc]
  simp only [Draft.trailer, directoryBytes_eq, hlength]
  rw [← closingStart, hbytes, clearRange_closingStart]
  simp only [Directory.size_encode]
  split
  · rename_i hmany
    simp [Nat.not_le_of_lt hmany]
  · split
    · rename_i hlarge
      simp [Nat.not_le_of_lt hlarge]
    · rename_i hfew hfit
      simp [Nat.le_of_not_lt hfew, Nat.le_of_not_lt hfit, eq_comm]

theorem write_trailer (hcursor : draft.cursor = image.size)
    (hbody : draft.bodyEnd ≤ draft.cursor) :
    Trailer.write ⟨draft.closingStart,
      Directory.encode draft.entries.toList draft.closingStart draft.comment,
      draft.bodyEnd, draft.closingStart - draft.bodyEnd⟩ image = draft.finished image := by
  obtain ⟨hle, hstart, hend⟩ := closingStart_spec hbody
  have hcleared : zeroFill image draft.bodyEnd (draft.closingStart - draft.bodyEnd) =
      draft.closingFront image ++ image.extract draft.closingStart image.size := by
    rw [zeroFill_eq (by omega), Nat.add_sub_cancel' hle]
    rfl
  have hfront := size_closingFront hcursor hbody
  have hover : overwrite (draft.closingFront image ++ image.extract draft.closingStart image.size)
      draft.closingStart
      (Directory.encode draft.entries.toList draft.closingStart draft.comment) =
      draft.finished image := by
    rw [← hfront, overwrite_append, hfront,
      extract_of_size_le (by rw [ByteArray.size_extract]; omega), ByteArray.append_empty]
    rfl
  rw [Trailer.write, hcleared, hover]
  dsimp only
  rw [← size_finished hcursor hbody, resize_size]

end

end Draft

namespace Writer

theorem toBytes_ok {draft : Draft} {image bytes : ByteArray}
    (hcursor : draft.cursor = image.size) (hbody : draft.bodyEnd ≤ draft.cursor) :
    toBytes ⟨draft, some image⟩ = .ok bytes ↔
      draft.entries.size ≤ maxLength ∧ (draft.finished image).size ≤ maxOffset ∧
        bytes = draft.finished image := by
  have hclose : toBytes ⟨draft, some image⟩ = .ok bytes ↔
      ∃ trailer, draft.trailer = .ok trailer ∧ bytes = trailer.write image := by
    cases h : draft.trailer with
    | error fault => simp [toBytes, complete, h]
    | ok trailer => simp [toBytes, complete, h, eq_comm]
  simp only [hclose, Draft.size_finished hcursor hbody, Draft.trailer_ok]
  constructor
  · rintro ⟨_, ⟨hfew, hfit, rfl⟩, rfl⟩
    exact ⟨hfew, hfit, Draft.write_trailer hcursor hbody⟩
  · rintro ⟨hfew, hfit, rfl⟩
    exact ⟨_, ⟨hfew, hfit, rfl⟩, (Draft.write_trailer hcursor hbody).symm⟩

/-- Where something was added, or nothing was taken up, the trailer goes to the end of the image. -/
theorem toBytes_appends {draft : Draft} {image bytes : ByteArray} (hf : draft.Fits image)
    (ho : ∀ old, draft.oldTrailer = some old → draft.cursor ≠ old.stop)
    (h : toBytes ⟨draft, some image⟩ = .ok bytes) :
    bytes = image ++ Directory.encode draft.entries.toList image.size draft.comment ∧
      bytes.size ≤ maxOffset := by
  have hbody : draft.bodyEnd = image.size := (Draft.bodyEnd_of_behind ho).trans hf.cursor_eq
  have hle : draft.bodyEnd ≤ draft.cursor := Nat.le_of_eq (Draft.bodyEnd_of_behind ho)
  obtain ⟨hfrom, hto, -⟩ := Draft.closingStart_spec hle
  have hstart : draft.closingStart = image.size :=
    Nat.le_antisymm (hf.cursor_eq ▸ hto) (hbody ▸ hfrom)
  obtain ⟨-, hsize, rfl⟩ := (toBytes_ok hf.cursor_eq hle).mp h
  refine ⟨?_, hsize⟩
  rw [Draft.finished, Draft.closingFront, hbody, hstart, Nat.sub_self, zeros_zero,
    ByteArray.append_empty, ByteArray.extract_zero_size]

theorem read_toBytes {draft : Draft} {image bytes : ByteArray} (hf : draft.Fits image)
    (ho : ∀ old, draft.oldTrailer = some old → draft.cursor ≠ old.stop)
    (h : toBytes ⟨draft, some image⟩ = .ok bytes) (hfew : draft.entries.size < maxLength)
    (hs : EndRecord.SoleSignature bytes draft.comment.size) :
    Directory.read bytes = .ok ⟨draft.entries, draft.comment, image.size, bytes.size⟩ := by
  obtain ⟨rfl, hsize⟩ := toBytes_appends hf ho h
  exact Directory.read_encode hf.writable hfew hsize hs

end Writer

end ClassicZip
