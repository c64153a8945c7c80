import ClassicZip.Proofs.Writer.Parcels

/-!
# What a read comes to

Where an entry's data lies is said by two headers, neither of which is trusted. `reads_exact`: the
data is read just where the local header stands at the entry's offset and the data behind it ends
within the image, and any other read fails for what is wrong there. So it is with entries of other
archives. No sum on the way leaves 64 bits, and no part that is read lies out of bounds.
-/

namespace ClassicZip

open Bytes

namespace Codec

theorem size_of_sized {method : Method} {size : Nat} {data result : ByteArray}
    (h : sized method size data = .ok result) : result.size = size := by
  unfold sized at h
  split at h
  · obtain rfl := Except.ok.inj h
    assumption
  · cases h

theorem size_of_ofExpansion {method : Method} {size : Nat} {expansion : Expansion}
    {data : ByteArray} (h : ofExpansion method size expansion = .ok data) : data.size = size := by
  cases expansion with
  | finished output => exact size_of_sized h
  | overflow => cases h
  | corrupt => cases h

theorem size_of_decompress [Coders] {method : Method} {stored data : ByteArray} {size : Nat}
    (h : decompress method stored size = .ok data) : data.size = size := by
  cases method with
  | store => exact size_of_sized h
  | deflate => exact size_of_ofExpansion h
  | bzip2 => exact size_of_ofExpansion h
  | zstd => exact size_of_ofExpansion h
  | unsupported id => cases h

end Codec

namespace Entry

/-- The entry's local header stands at its offset, and the name and the extra field behind it. -/
structure HeaderAt (image : ByteArray) (entry : Entry) : Prop where
  fixed_le : entry.localOffset.toNat + LocalHeader.fixedSize ≤ image.size
  signature_eq : u32At image entry.localOffset.toNat = LocalHeader.signature
  dataOffset_le : entry.localDataOffset image ≤ image.size

/-- What is wrong where a read fails: another signature stands at the entry's offset, or else the
header reaches over the end of the image, or else the data does. -/
def readFault (image : ByteArray) (entry : Entry) : Fault :=
  if entry.localOffset.toNat + LocalHeader.fixedSize ≤ image.size ∧
      u32At image entry.localOffset.toNat ≠ LocalHeader.signature then
    .badSignature LocalHeader.signature (u32At image entry.localOffset.toNat)
      entry.localOffset.toNat
  else if image.size < entry.localOffset.toNat + LocalHeader.fixedSize ∨
      image.size < entry.localDataOffset image then
    .truncated .localHeader entry.localOffset.toNat
  else .truncated .entryData (entry.localDataOffset image)

/-- The way to the data again, with the header read through a cursor: a field that the buffer
lacked would show as a fault of reading. -/
def locateByCursor (image : ByteArray) (size : Nat) (entry : Entry) : Except Fault LocalEntry := do
  let offset := entry.localOffset.toNat
  if size < offset + LocalHeader.fixedSize then
    throw (.truncated .localHeader offset)
  let fixed ← Image.read image .readingLocalHeader offset LocalHeader.fixedSize
  let (signature, atFields) ← (Cursor.ofBytes fixed).takeU32.mapError Fault.read
  if signature ≠ LocalHeader.signature then
    throw (.badSignature LocalHeader.signature signature offset)
  let (header, _) ← atFields.takeLocalHeader.mapError Fault.read
  let dataOffset := offset + (LocalHeader.fixedSize + header.variableSize)
  let extraOffset := dataOffset - header.extraLength.toNat
  if size < dataOffset then
    throw (.truncated .localHeader offset)
  let extra ← Image.read image .readingLocalExtra extraOffset header.extraLength.toNat
  return ⟨extra, dataOffset⟩

section
variable {image : ByteArray} {entry : Entry}

theorem locateByCursor_eq (image : ByteArray) (size : Nat) (entry : Entry) :
    entry.locateByCursor image size = entry.locate image size := by
  simp only [locateByCursor, locate, guard_eq]
  split
  · rfl
  · cases hfixed : Image.read image .readingLocalHeader entry.localOffset.toNat
      LocalHeader.fixedSize with
    | error fault => rfl
    | ok fixed =>
      have hsize : fixed.size = LocalHeader.fixedSize := by
        obtain ⟨hfit, rfl⟩ := Image.read_ok.mp hfixed
        exact size_slice (hfit.resolve_left (by decide))
      have hfirst : u32At (slice fixed 0 4) 0 = u32At fixed 0 := u32At_slice (by decide)
      have hword : (Cursor.ofBytes fixed).takeU32 = .ok (u32At fixed 0, ⟨fixed, 4⟩) := by
        have hfit : 0 + 4 ≤ fixed.size := hsize ▸ by decide
        exact Cursor.takeU32_ok.mpr ⟨_, Cursor.take_ok.mpr ⟨hfit, rfl, rfl⟩, hfirst.symm⟩
      have hbody : Cursor.takeLocalHeader ⟨fixed, 4⟩ =
          .ok (LocalHeader.decode (slice fixed 4 LocalHeader.bodySize),
            ⟨fixed, LocalHeader.fixedSize⟩) :=
        Cursor.takeLocalHeader_ok.mpr
          ⟨_, Cursor.take_ok.mpr ⟨Nat.le_of_eq hsize.symm, rfl, rfl⟩, rfl⟩
      simp only [ok_bind, hword, hbody, mapError_ok, Nat.add_assoc]

theorem HeaderAt.locate_eq (h : entry.HeaderAt image) : entry.locate image image.size =
    .ok ⟨slice image (entry.localDataOffset image - entry.localExtraLength image)
      (entry.localExtraLength image), entry.localDataOffset image⟩ := by
  rw [Entry.locate_eq, if_neg (Nat.not_lt_of_le h.fixed_le), if_neg (not_not_intro h.signature_eq),
    if_neg (Nat.not_lt_of_le h.dataOffset_le)]

theorem headerAt_of_locate {here : LocalEntry} (h : entry.locate image image.size = .ok here) :
    entry.HeaderAt image ∧ here.dataOffset = entry.localDataOffset image := by
  obtain ⟨hsig, hoffset, hdata, -⟩ := locate_ok.mp h
  rw [← localDataOffset] at hoffset
  rw [hoffset] at hdata
  exact ⟨⟨Nat.le_of_add_right_le hdata, hsig, hdata⟩, hoffset⟩

theorem fault_of_locate {fault : Fault} (h : entry.locate image image.size = .error fault) :
    fault = entry.readFault image := by
  rw [locate_eq] at h
  unfold readFault
  split at h
  · rename_i hfixed
    rw [if_neg (fun hsig => Nat.not_le_of_lt hfixed hsig.1), if_pos (.inl hfixed)]
    exact (Except.error.inj h).symm
  · rename_i hfixed
    split at h
    · rename_i hsig
      rw [if_pos ⟨Nat.le_of_not_lt hfixed, hsig⟩]
      exact (Except.error.inj h).symm
    · rename_i hsig
      split at h
      · rename_i hdata
        rw [if_neg (fun hne => hsig hne.2), if_pos (.inr hdata)]
        exact (Except.error.inj h).symm
      · cases h

theorem HeaderAt.readFault_eq (h : entry.HeaderAt image) :
    entry.readFault image = .truncated .entryData (entry.localDataOffset image) := by
  have hdata : ¬(image.size < entry.localOffset.toNat + LocalHeader.fixedSize ∨
      image.size < entry.localDataOffset image) := by
    rintro (hlt | hlt)
    · exact Nat.not_le_of_lt hlt h.fixed_le
    · exact Nat.not_le_of_lt hlt h.dataOffset_le
  rw [readFault, if_neg (fun hne => hne.2 h.signature_eq), if_neg hdata]

theorem storedAt_iff {stored : ByteArray} : (∃ here, entry.StoredAt image here stored) ↔
    entry.HeaderAt image ∧
      entry.localDataOffset image + entry.storedSize.toNat ≤ image.size ∧
      stored = slice image (entry.localDataOffset image) entry.storedSize.toNat := by
  constructor
  · rintro ⟨here, h⟩
    obtain ⟨hheader, hoffset⟩ := headerAt_of_locate h.locate_eq
    have hend := h.dataEnd_le
    have hstored := h.stored_eq
    rw [dataEnd, hoffset] at hend
    rw [hoffset] at hstored
    exact ⟨hheader, hend, hstored⟩
  · rintro ⟨hheader, hend, hstored⟩
    obtain ⟨hsig, hoffset, -, hextra⟩ := locate_ok.mp hheader.locate_eq
    exact ⟨_, hsig, hoffset, hend, hextra, hstored⟩

theorem fault_of_readStored {fault : Fault}
    (h : entry.readStored image image.size = .error fault) : fault = entry.readFault image := by
  rw [readStored_eq, bind_eq_error] at h
  rcases h with hlocate | ⟨here, hlocate, h⟩
  · exact fault_of_locate hlocate
  · obtain ⟨hheader, hoffset⟩ := headerAt_of_locate hlocate
    split at h
    · rw [hheader.readFault_eq, ← hoffset]
      exact (Except.error.inj h).symm
    · cases h

theorem localDataOffset_add_lt (image : ByteArray) (entry : Entry) :
    entry.localDataOffset image + entry.storedSize.toNat < 2 ^ 64 := by
  have hoffset := entry.localOffset.toNat_lt
  have hstored := entry.storedSize.toNat_lt
  have hname := (u16At image (entry.localOffset.toNat + 26)).toNat_lt
  have hextra := (u16At image (entry.localOffset.toNat + 28)).toNat_lt
  simp only [localDataOffset, localNameLength, localExtraLength, LocalHeader.fixedSize,
    LocalHeader.bodySize]
  omega

end

end Entry

namespace Archive

section
variable {archive : Archive} {image : ByteArray} {entry : Entry}

theorem On.readRaw_eq_ok (ho : archive.On image) {stored : ByteArray} :
    archive.readRaw entry = .ok stored ↔ entry.HeaderAt image ∧
      entry.localDataOffset image + entry.storedSize.toNat ≤ image.size ∧
      stored = slice image (entry.localDataOffset image) entry.storedSize.toNat := by
  rw [ho.readRaw_ok, Entry.storedAt_iff]

theorem On.readRaw_eq_error (ho : archive.On image) (h : ¬(entry.HeaderAt image ∧
    entry.localDataOffset image + entry.storedSize.toNat ≤ image.size)) :
    archive.readRaw entry = .error (entry.readFault image) := by
  cases hread : archive.readRaw entry with
  | ok stored =>
    obtain ⟨hheader, hend, -⟩ := ho.readRaw_eq_ok.mp hread
    exact absurd ⟨hheader, hend⟩ h
  | error fault =>
    simp only [readRaw, ho.image_eq, ho.imageSize_eq] at hread
    split at hread
    · rename_i found hstored
      rw [← Except.error.inj hread, Entry.fault_of_readStored hstored]
    · cases hread

theorem On.readRaw_cleared (ho : archive.On image)
    (hfit : entry.localOffset.toNat + LocalHeader.fixedSize ≤ image.size)
    (hcleared : u32At image entry.localOffset.toNat = 0) :
    archive.readRaw entry =
      .error (.badSignature LocalHeader.signature 0 entry.localOffset.toNat) := by
  have hsig : u32At image entry.localOffset.toNat ≠ LocalHeader.signature := by
    rw [hcleared]
    decide
  rw [ho.readRaw_eq_error fun hread => hsig hread.1.signature_eq, Entry.readFault,
    if_pos ⟨hfit, hsig⟩, hcleared]

theorem On.dataOffset_eq_ok (ho : archive.On image) {offset : Nat} :
    archive.dataOffset entry = .ok offset ↔
      entry.HeaderAt image ∧ offset = entry.localDataOffset image := by
  simp only [dataOffset, ho.image_eq, ho.imageSize_eq]
  constructor
  · intro h
    split at h
    · cases h
    · rename_i here hlocate
      obtain ⟨hheader, hoffset⟩ := Entry.headerAt_of_locate hlocate
      obtain rfl := Except.ok.inj h
      exact ⟨hheader, hoffset⟩
  · rintro ⟨hheader, rfl⟩
    rw [hheader.locate_eq]

theorem On.dataOffset_eq_error (ho : archive.On image) (h : ¬entry.HeaderAt image) :
    archive.dataOffset entry = .error (entry.readFault image) := by
  simp only [dataOffset, ho.image_eq, ho.imageSize_eq]
  cases hlocate : entry.locate image image.size with
  | ok here => exact absurd (Entry.headerAt_of_locate hlocate).1 h
  | error fault => rw [Entry.fault_of_locate hlocate]

theorem On.readData_eq_ok [Codec.Coders] (ho : archive.On image) (hd : entry.isDirectory = false)
    {data : ByteArray} :
    archive.readData entry = .ok data ↔
      (∃ stored, archive.readRaw entry = .ok stored ∧
        Codec.decompress entry.method stored entry.size.toNat = .ok data) ∧
      data.size = entry.size.toNat ∧ crc32 data = entry.crc := by
  have hkind : ¬entry.isDirectory = true := Bool.eq_false_iff.mp hd
  constructor
  · intro h
    cases hread : archive.readRaw entry with
    | error fault => rw [readData, if_neg hkind, hread] at h; cases h
    | ok stored =>
      rw [ho.readData_eq hread, Entry.decode, if_neg hkind] at h
      split at h
      · cases h
      · rename_i expanded hexpand
        dsimp only at h
        split at h
        · rename_i hcrc
          obtain rfl := Except.ok.inj h
          exact ⟨⟨stored, rfl, hexpand⟩, Codec.size_of_decompress hexpand, hcrc⟩
        · cases h
  · rintro ⟨⟨stored, hread, hexpand⟩, -, hcrc⟩
    rw [ho.readData_eq hread, Entry.decode, if_neg hkind, hexpand]
    exact if_pos hcrc

end

/-- The data of an entry, one of the archive's own or another, is read just where the local header
stands at its offset and the data ends within the image, and `readFault` says what is wrong
elsewhere. Decoded data has the size and the checksum of the record. -/
theorem reads_exact [Codec.Coders] {image : ByteArray} {archive : Archive}
    (h : ofBytes image = .ok archive) (entry : Entry) :
    (∀ stored, archive.readRaw entry = .ok stored ↔ entry.HeaderAt image ∧
      entry.localDataOffset image + entry.storedSize.toNat ≤ image.size ∧
      stored = slice image (entry.localDataOffset image) entry.storedSize.toNat) ∧
    (∀ offset, archive.dataOffset entry = .ok offset ↔
      entry.HeaderAt image ∧ offset = entry.localDataOffset image) ∧
    (¬(entry.HeaderAt image ∧
        entry.localDataOffset image + entry.storedSize.toNat ≤ image.size) →
      archive.readRaw entry = .error (entry.readFault image)) ∧
    (¬entry.HeaderAt image → archive.dataOffset entry = .error (entry.readFault image)) ∧
    (entry.isDirectory = false →
      (∀ data, archive.readData entry = .ok data ↔
        (∃ stored, archive.readRaw entry = .ok stored ∧
          Codec.decompress entry.method stored entry.size.toNat = .ok data) ∧
        data.size = entry.size.toNat ∧ crc32 data = entry.crc) ∧
      ∀ stored data, archive.readRaw entry = .ok stored →
        Codec.decompress entry.method stored entry.size.toNat = .ok data →
        crc32 data ≠ entry.crc → archive.readData entry =
          .error (.checksumMismatch entry.nameText entry.crc (crc32 data))) ∧
    entry.locateByCursor image image.size = entry.locate image image.size ∧
    entry.localDataOffset image + entry.storedSize.toNat < 2 ^ 64 ∧
    entry.localOffset.toNat + LocalHeader.fixedSize + entry.localExtraLength image ≤
      entry.localDataOffset image := by
  have ho := on_of_ofBytes h
  refine ⟨fun stored => ho.readRaw_eq_ok, fun offset => ho.dataOffset_eq_ok, ho.readRaw_eq_error,
    ho.dataOffset_eq_error, fun hd => ⟨fun data => ho.readData_eq_ok hd, ?_⟩,
    Entry.locateByCursor_eq image image.size entry, entry.localDataOffset_add_lt image, ?_⟩
  · intro stored data hread hexpand hcrc
    rw [ho.readData_eq hread, Entry.decode, if_neg (Bool.eq_false_iff.mp hd), hexpand]
    exact if_neg hcrc
  · rw [Entry.localDataOffset]
    exact Nat.add_le_add_left (Nat.le_add_left _ _) _

/-- Of three records, the archive holds the first one; where the second points the directory
stands, and the third points over the end. -/
theorem reads_exact_foreign :
    ∃ archive, ofBytes (Parcel.behindDirectory [.letter 0 "a" 47 0] ByteArray.empty) =
        .ok archive ∧
      archive.readRaw (Parcel.letter 0 "a" 47 0).entry = .ok "x".toUTF8 ∧
      archive.readData (Parcel.letter 0 "a" 47 0).entry = .ok "x".toUTF8 ∧
      archive.readRaw (Parcel.letter 0 "a" 0 0).entry =
        .error (.badSignature LocalHeader.signature DirectoryHeader.signature 0) ∧
      archive.dataOffset (Parcel.letter 0 "a" 90 0).entry =
        .error (.truncated .localHeader 90) := by
  have hread : (ofBytes (Parcel.behindDirectory [.letter 0 "a" 47 0] ByteArray.empty)).toOption =
      some ⟨memoryName, ⟨#[(Parcel.letter 0 "a" 47 0).entry], ByteArray.empty, 0, 101⟩,
        some (Parcel.behindDirectory [.letter 0 "a" 47 0] ByteArray.empty)⟩ := by
    decide +kernel
  have hopen := toOption_eq_some.mp hread
  have hraw := ((reads_exact hopen (Parcel.letter 0 "a" 47 0).entry).1 "x".toUTF8).mpr
    ⟨⟨by decide +kernel, by decide +kernel, by decide +kernel⟩, by decide +kernel,
      by decide +kernel⟩
  refine ⟨_, hopen, hraw, ?_, ?_, ?_⟩
  · have hdata := ((reads_exact hopen (Parcel.letter 0 "a" 47 0).entry).2.2.2.2.1
      (by decide +kernel)).1 "x".toUTF8
    exact hdata.mpr ⟨⟨_, hraw, toOption_eq_some.mp (by decide +kernel)⟩, by decide +kernel,
      by decide +kernel⟩
  · have hfault := (reads_exact hopen (Parcel.letter 0 "a" 0 0).entry).2.2.1 fun hfound => by
      have hsig := hfound.1.signature_eq
      revert hsig
      decide +kernel
    exact hfault.trans (congrArg Except.error (by decide +kernel))
  · have hfault := (reads_exact hopen (Parcel.letter 0 "a" 90 0).entry).2.2.2.1 fun hheader => by
      have hfit := hheader.fixed_le
      revert hfit
      decide +kernel
    exact hfault.trans (congrArg Except.error (by decide +kernel))

end Archive

end ClassicZip
