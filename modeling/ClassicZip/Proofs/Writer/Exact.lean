import ClassicZip.Proofs.Writer.Narrowing
import ClassicZip.Proofs.Writer.Settled

/-!
# Every number that is written is the true one

What a writer puts into an archive says of each length, size, count and offset just what it is: in
the local headers and their alignment blocks, in the listings, and in the end record. What cannot be
said so is refused, with nothing written.
-/

namespace ClassicZip

open Bytes

namespace Parcel

def header (parcel : Parcel) : LocalHeader :=
  LocalHeader.decode (slice parcel.bytes 4 LocalHeader.bodySize)

/-- The numbers of a parcel at `offset` are true, with the length of an alignment block in its extra
field. -/
structure Exact (parcel : Parcel) (offset : Nat) : Prop where
  nameLength_eq : parcel.header.nameLength.toNat = parcel.entry.name.size
  extraLength_eq : parcel.header.extraLength.toNat = parcel.extra.size
  storedSize_eq : parcel.header.storedSize.toNat = parcel.stored.size
  size_eq : parcel.header.size = parcel.entry.size
  blockLength_eq : ∀ front alignment padding, parcel.extra = front ++ Alignment.block alignment padding →
    (u16At parcel.extra (front.size + 2)).toNat = 2 + padding
  localOffset_eq : parcel.entry.localOffset.toNat = offset

theorem header_decoded (parcel : Parcel) :
    parcel.header = parcel.entry.localHeader parcel.extra.size := by
  have himage := parcel.image_eq ByteArray.empty ByteArray.empty
  rw [ByteArray.empty_append, ByteArray.append_empty, ByteArray.empty_append] at himage
  have hslice := slice_append_append (le32 LocalHeader.signature)
    (parcel.entry.localHeader parcel.extra.size).encode
    (parcel.entry.name ++ (parcel.extra ++ (parcel.stored ++ ByteArray.empty)))
  rw [size_le32, LocalHeader.size_encode, ← himage] at hslice
  rw [header, hslice, LocalHeader.decode_encode]

theorem At.exact {parcel : Parcel} {offset : Nat} (h : parcel.At offset) : parcel.Exact offset where
  nameLength_eq := by
    rw [header_decoded]
    exact toNat_ofNat_of_le_maxLength h.name_le
  extraLength_eq := by
    rw [header_decoded]
    exact toNat_ofNat_of_le_maxLength h.extra_le
  storedSize_eq := by
    rw [header_decoded]
    exact h.storedSize_eq
  size_eq := by rw [header_decoded]; rfl
  blockLength_eq := by
    intro front alignment padding hextra
    have hfit := h.extra_le
    rw [hextra, ByteArray.size_append, Alignment.size_block, Alignment.blockHead] at hfit
    have hlength : u16At (Alignment.block alignment padding) (0 + 2) = UInt16.ofNat (2 + padding) := by
      simp only [Alignment.block, ByteArray.append_assoc, u16At_le16_append_add, u16At_le16_append]
    rw [hextra, u16At_append_right (Nat.le_add_right _ _), Nat.add_sub_cancel_left, ← Nat.zero_add 2,
      hlength]
    exact toNat_ofNat_of_le_maxLength (by omega)
  localOffset_eq := h.localOffset_eq

theorem Packed.exact {offset : Nat} {front back : List Parcel} {parcel : Parcel}
    (h : Packed offset (front ++ parcel :: back)) : parcel.Exact (offset + (pack front).size) :=
  (packed_append.mp h).2.1.exact

end Parcel

namespace Directory

def endRecord (entries : List Entry) (start : Nat) (comment : ByteArray) : EndRecord :=
  EndRecord.decode (slice (encode entries start comment) ((Entry.listing entries).size + 4)
    EndRecord.bodySize)

/-- The numbers of a directory that starts at `start` are true, those of its listings and those of
its end record. -/
structure Exact (entries : List Entry) (start : Nat) (comment : ByteArray) : Prop where
  fits : ∀ entry ∈ entries, entry.listed.Fits
  sum_eq : (entries.map Entry.directorySize).sum = (Entry.listing entries).size
  entries_eq : (endRecord entries start comment).entries.toNat = entries.length
  entriesOnDisk_eq : (endRecord entries start comment).entriesOnDisk.toNat = entries.length
  directorySize_eq :
    (endRecord entries start comment).directorySize.toNat = (Entry.listing entries).size
  directoryOffset_eq : (endRecord entries start comment).directoryOffset.toNat = start
  commentLength_eq : (endRecord entries start comment).commentLength.toNat = comment.size

theorem endRecord_decoded (entries : List Entry) (start : Nat) (comment : ByteArray) :
    endRecord entries start comment = EndRecord.ofListing entries start comment := by
  have hsplit : encode entries start comment =
      (Entry.listing entries ++ le32 EndRecord.signature) ++
        ((EndRecord.ofListing entries start comment).encode ++ comment) := by
    rw [encode, EndRecord.ending, ByteArray.append_assoc]
  have hslice := slice_append_append (Entry.listing entries ++ le32 EndRecord.signature)
    (EndRecord.ofListing entries start comment).encode comment
  rw [ByteArray.size_append, size_le32, EndRecord.size_encode, ← hsplit] at hslice
  rw [endRecord, hslice, EndRecord.decode_encode]

theorem Writable.exact {entries : List Entry} {start : Nat} {comment : ByteArray}
    (h : Writable entries comment) (hmany : entries.length ≤ maxLength)
    (hsize : start + (encode entries start comment).size ≤ maxOffset) :
    Exact entries start comment := by
  rw [size_encode] at hsize
  refine ⟨fun entry hentry => (h.listable entry hentry).fits_listed,
    Narrowed.sum_directorySize h.listable, ?_, ?_, ?_, ?_, ?_⟩
  all_goals rw [endRecord_decoded]
  · exact toNat_ofNat_of_le_maxLength hmany
  · exact toNat_ofNat_of_le_maxLength hmany
  · exact toNat_ofNat_of_le_maxOffset (by omega)
  · exact toNat_ofNat_of_le_maxOffset (by omega)
  · exact toNat_ofNat_of_le_maxLength h.comment_le

end Directory

namespace Writer

/-- Of a writer this says that no number is cut. -/
structure Exact [Codec.Coders] (writer : Writer) : Prop where
  /-- In no call a number is narrowed that does not fit. -/
  operate_eq : ∀ operation,
    Narrowed.operate true writer operation = some (writer.operate operation)
  toBytes_eq : Narrowed.toBytes true writer = Narrowed.plain writer.toBytes
  /-- What would need a larger number is refused, and the writer stays as it was. -/
  operate_refused : ∀ operation, Narrowed.operate false writer operation = none →
    ∃ fault : Fault, fault.TooLarge ∧ writer.operate operation = (writer, .error fault)
  toBytes_refused : (Narrowed.toBytes false writer).run = none →
    ∃ fault : Fault, fault.TooLarge ∧ writer.complete = (writer, .error fault)
  /-- The numbers in what is written are true. -/
  added : ∀ image addition next, writer.image = some image →
    writer.perform (.add addition) = (next, .ok ()) →
    ∃ parcel : Parcel, next.image = some (image ++ parcel.bytes) ∧
      next.draft.entries = writer.draft.entries.push parcel.entry ∧ parcel.Exact image.size ∧
      parcel.entry.size.toNat = addition.data.size
  rebuilt : ∀ names next, writer.rebuildWithout names = (next, .ok ()) →
    ∃ parcels : List Parcel, next.image = some (Parcel.pack parcels ++
        Directory.encode (parcels.map (·.entry)) (Parcel.pack parcels).size writer.draft.comment) ∧
      (∀ front parcel back, parcels = front ++ parcel :: back →
        parcel.Exact (Parcel.pack front).size) ∧
      Directory.Exact (parcels.map (·.entry)) (Parcel.pack parcels).size writer.draft.comment
  closed : ∀ bytes, writer.toBytes = .ok bytes →
    ∃ front, bytes = front ++ Directory.encode writer.draft.entries.toList front.size
        writer.draft.comment ∧
      Directory.Exact writer.draft.entries.toList front.size writer.draft.comment

/-- Whatever was asked of a writer before, no number is cut to fit its field, neither in a call nor
when the archive is closed. -/
theorem Obtained.fields_exact [Codec.Coders] {writer : Writer} (h : Obtained writer) :
    writer.Exact := by
  obtain ⟨draft, _ | image⟩ := writer
  · exact ⟨fun _ => rfl, rfl, nofun, nofun, nofun, nofun, nofun⟩
  have hd : draft.Sound image := h.sound image rfl
  have hanswers := fun checked => Narrowed.next_answers checked hd.toFits
  refine ⟨?_, ?_, ?_, ?_, ?_, ?_, ?_⟩
  · intro operation
    obtain ⟨x, hanswer, hsame | ⟨hleft, -⟩⟩ := hanswers true operation
    · rw [hanswer, Narrowed.operate, hsame]
      rfl
    · cases hleft
  · rcases Narrowed.toBytes_agrees true image hd.writable with
      hsame | ⟨hleft, -⟩
    · exact hsame
    · cases hleft
  · intro operation hnone
    obtain ⟨x, hanswer, hsame | ⟨-, fault, rfl, hlarge⟩⟩ := hanswers false operation
    · rw [Narrowed.operate, hsame] at hnone
      cases hnone
    · exact ⟨fault, hlarge, hanswer⟩
  · intro hnone
    rcases Narrowed.toBytes_agrees false image hd.writable with
      hsame | ⟨-, fault, hfail, hlarge⟩
    · rw [hsame] at hnone
      cases hnone
    · exact ⟨fault, hlarge, Prod.ext (complete_error (Prod.ext rfl hfail)) hfail⟩
  · rintro _ addition next ⟨rfl⟩ hadd
    obtain ⟨parcel, hgrown, ⟨made, hmake, hentry⟩, -⟩ := perform_add_ok hd.toFits hadd
    refine ⟨parcel, ?_, ?_, hgrown.packed.1.exact, ?_⟩
    · rw [hgrown.image_eq, Parcel.pack_cons, Parcel.pack_nil, ByteArray.append_empty]
    · apply Array.toList_inj.mp
      rw [hgrown.entries_eq, Array.toList_push]
      rfl
    · have hsize := Addition.size_of_make hmake
      rw [hentry]
      exact hsize
  · intro names next hrebuild
    obtain ⟨bytes, hbytes, hof⟩ := rebuildWithout_ok hrebuild
    obtain ⟨parcels, -, hpacked, hwritable, hmany, rfl, hsize⟩ := rebuiltImage_renewed hd.writable hbytes
    obtain ⟨_, rfl, -⟩ := ofBytes_fits hof
    refine ⟨parcels, rfl, ?_, ?_⟩
    · rintro front parcel back rfl
      have hexact := hpacked.exact
      rwa [Nat.zero_add] at hexact
    · rw [ByteArray.size_append] at hsize
      exact hwritable.exact hmany hsize
  · intro bytes hclose
    obtain ⟨hmany, hsize, rfl⟩ := hd.toBytes_ok.mp hclose
    rw [hd.finished_eq, ByteArray.size_append] at hsize
    exact ⟨_, hd.finished_eq, hd.writable.exact hmany hsize⟩

/-- One byte more than the length field of the comment can say. -/
def longComment : Operation := .call (.setComment (zeros 65536))

theorem Obtained.fields_exact_letters :
    ∃ bytes front, twoLetters.toBytes = .ok bytes ∧
      bytes = front ++ Directory.encode twoLetters.draft.entries.toList front.size
        twoLetters.draft.comment ∧
      (Directory.endRecord twoLetters.draft.entries.toList front.size
        twoLetters.draft.comment).entries.toNat = 2 ∧
      ∃ fault : Fault, fault.TooLarge ∧
        twoLetters.operate longComment = (twoLetters, .error fault) := by
  have hexact : twoLetters.Exact := (Obtained.fresh.after [addLetter "a", addLetter "b"]).fields_exact
  have hcheck : twoLetters.toBytes.toOption.isSome ∧ twoLetters.draft.entries.size = 2 ∧
      twoLetters.image.isSome := by
    decide +kernel
  obtain ⟨hcloses, hsize, hopen⟩ := hcheck
  obtain ⟨bytes, hbytes⟩ := Option.isSome_iff_exists.mp hcloses
  have hclose := toOption_eq_some.mp hbytes
  obtain ⟨front, hfront, hdirectory⟩ := hexact.closed bytes hclose
  have hlong : Narrowed.to16 (zeros 65536).size = none :=
    if_neg (by rw [size_zeros]; decide)
  have hnone (draft : Draft) (image : ByteArray) :
      Narrowed.operate false ⟨draft, some image⟩ longComment = none := by
    simp only [Narrowed.operate, longComment, Narrowed.next, Narrowed.withComment, Narrowed.refuse,
      hlong]
    rfl
  obtain ⟨image, himage⟩ := Option.isSome_iff_exists.mp hopen
  have hwriter : twoLetters = ⟨twoLetters.draft, some image⟩ := by rw [← himage]
  have hrefused : Narrowed.operate false twoLetters longComment = none := by
    rw [hwriter]
    exact hnone _ _
  exact ⟨bytes, front, hclose, hfront, hdirectory.entries_eq.trans (Array.length_toList.trans hsize),
    hexact.operate_refused longComment hrefused⟩

end Writer

end ClassicZip
