import ClassicZip.Proofs.Archive.Opened
import ClassicZip.Proofs.Directory.Chosen
import ClassicZip.Proofs.Directory.Guarded

/-!
# Just what can be opened

An image is an archive when the record that is chosen is not one of a 64-bit archive and as many
headers as it counts stand one behind the other from its offset on. `Directory.Rejected` lists what
can be wrong with any other image. `Archive.ofBytes_exact` puts both together, and that the parser
keeps within its buffers.
-/

namespace ClassicZip

open Bytes

namespace Directory

/-- From `start` on the image has these headers, one behind the other, and then up to `stop` the
rest. -/
structure Lists (image : ByteArray) (start stop : Nat) (headers : List ListedHeader)
    (rest : ByteArray) : Prop where
  start_le : start ≤ stop
  fits : ∀ listed ∈ headers, listed.Fits
  bytes_eq : slice image start (stop - start) = ListedHeader.pack headers ++ rest

def ofHeaders (image : ByteArray) (position : Nat) (record : EndRecord)
    (headers : List ListedHeader) : Directory where
  entries := (headers.mapIdx fun index listed => listed.entry index).toArray
  comment := slice image (position + EndRecord.fixedSize) record.commentLength.toNat
  offset := record.directoryOffset.toNat
  imageSize := image.size

/-- What is wrong with an image that is no archive. -/
inductive Rejected (image : ByteArray) : Fault → Prop
  | unrecorded : (∀ position record, ¬EndRecord.Chosen image position record) →
      Rejected image .endRecordNotFound
  | extended {position : Nat} {record : EndRecord} :
      EndRecord.Chosen image position record → EndRecord.Extended image position record →
      Rejected image (.oversize .endRecord)
  | beyond {position : Nat} {record : EndRecord} :
      EndRecord.Chosen image position record → ¬EndRecord.Extended image position record →
      position < record.directoryOffset.toNat →
      Rejected image (.truncated .directory record.directoryOffset.toNat)
  /-- Fewer headers are there than the record counts, and none behind them. -/
  | unlisted {position : Nat} {record : EndRecord} {headers : List ListedHeader}
      {rest : ByteArray} :
      EndRecord.Chosen image position record → ¬EndRecord.Extended image position record →
      Lists image record.directoryOffset.toNat position headers rest →
      headers.length < record.entries.toNat →
      (∀ listed behind, ListedHeader.Fits listed → rest ≠ listed.bytes ++ behind) →
      Rejected image (Entry.headerFault rest
        (record.directoryOffset.toNat + (ListedHeader.pack headers).size))

section
variable {image : ByteArray} {position : Nat} {record : EndRecord}

theorem ofEndRecord_eq_ok {directory : Directory} :
    ofEndRecord image image position record = .ok directory ↔
      ∃ headers rest, Lists image record.directoryOffset.toNat position headers rest ∧
        headers.length = record.entries.toNat ∧
        directory = ofHeaders image position record headers := by
  simp only [ofEndRecord, Nat.sub_self, Nat.zero_add]
  split
  · rename_i hbeyond
    constructor
    · intro h
      cases h
    · rintro ⟨headers, rest, hlists, -⟩
      exact absurd hlists.start_le (Nat.not_le_of_lt hbeyond)
  · rename_i hoffset
    have hahead := Cursor.ahead_ofBytes (slice image record.directoryOffset.toNat
      (position - record.directoryOffset.toNat))
    constructor
    · intro h
      split at h
      · cases h
      · rename_i entries hentries
        obtain ⟨headers, rest, hlength, hfits, hbytes, rfl⟩ :=
          (Entry.takeMany_eq_ok hahead).mp hentries
        refine ⟨headers, rest, ⟨Nat.le_of_not_lt hoffset, hfits, hbytes⟩, hlength, ?_⟩
        obtain rfl := Except.ok.inj h
        simp [ofHeaders]
    · rintro ⟨headers, rest, hlists, hlength, rfl⟩
      rw [(Entry.takeMany_eq_ok hahead).mpr
        ⟨headers, rest, hlength, hlists.fits, hlists.bytes_eq, rfl⟩]
      simp [ofHeaders]

theorem read_eq_ok {directory : Directory} :
    read image = .ok directory ↔
      ∃ position record headers rest, EndRecord.Chosen image position record ∧
        ¬EndRecord.Extended image position record ∧
        Lists image record.directoryOffset.toNat position headers rest ∧
        headers.length = record.entries.toNat ∧
        directory = ofHeaders image position record headers := by
  constructor
  · intro h
    obtain ⟨position, record, hchosen⟩ : ∃ position record,
        EndRecord.Chosen image position record := by
      refine Classical.byContradiction fun hnone => ?_
      rw [read_of_none fun position record hchosen => hnone ⟨position, record, hchosen⟩] at h
      cases h
    rw [read_of_chosen hchosen] at h
    split at h
    · cases h
    · rename_i hplain
      obtain ⟨headers, rest, hlists, hlength, rfl⟩ := ofEndRecord_eq_ok.mp h
      exact ⟨position, record, headers, rest, hchosen, hplain, hlists, hlength, rfl⟩
  · rintro ⟨position, record, headers, rest, hchosen, hplain, hlists, hlength, rfl⟩
    rw [read_of_chosen hchosen, if_neg hplain]
    exact ofEndRecord_eq_ok.mpr ⟨headers, rest, hlists, hlength, rfl⟩

theorem ofEndRecord_eq_error {fault : Fault} :
    ofEndRecord image image position record = .error fault ↔
      (position < record.directoryOffset.toNat ∧
        fault = .truncated .directory record.directoryOffset.toNat) ∨
      ∃ headers rest, Lists image record.directoryOffset.toNat position headers rest ∧
        headers.length < record.entries.toNat ∧
        (∀ listed behind, ListedHeader.Fits listed → rest ≠ listed.bytes ++ behind) ∧
        fault = Entry.headerFault rest
          (record.directoryOffset.toNat + (ListedHeader.pack headers).size) := by
  simp only [ofEndRecord, Nat.sub_self, Nat.zero_add]
  split
  · rename_i hbeyond
    constructor
    · rintro ⟨rfl⟩
      exact .inl ⟨hbeyond, rfl⟩
    · rintro (⟨-, rfl⟩ | ⟨headers, rest, hlists, -⟩)
      · rfl
      · exact absurd hlists.start_le (Nat.not_le_of_lt hbeyond)
  · rename_i hoffset
    have hahead := Cursor.ahead_ofBytes (slice image record.directoryOffset.toNat
      (position - record.directoryOffset.toNat))
    constructor
    · intro h
      split at h
      · rename_i hfault
        obtain ⟨headers, rest, hlength, hfits, hbytes, hnone, rfl⟩ :=
          (Entry.takeMany_eq_error hahead).mp hfault
        obtain rfl := Except.error.inj h
        exact .inr ⟨headers, rest, ⟨Nat.le_of_not_lt hoffset, hfits, hbytes⟩, hlength, hnone, rfl⟩
      · cases h
    · rintro (⟨hbeyond, -⟩ | ⟨headers, rest, hlists, hlength, hnone, rfl⟩)
      · exact absurd hbeyond hoffset
      · rw [(Entry.takeMany_eq_error hahead).mpr
          ⟨headers, rest, hlength, hlists.fits, hlists.bytes_eq, hnone, rfl⟩]
        rfl

theorem read_eq_error {fault : Fault} : read image = .error fault ↔ Rejected image fault := by
  constructor
  · intro h
    by_cases hsome : ∃ position record, EndRecord.Chosen image position record
    · obtain ⟨position, record, hchosen⟩ := hsome
      rw [read_of_chosen hchosen] at h
      split at h
      · rename_i hextended
        obtain rfl := Except.error.inj h
        exact .extended hchosen hextended
      · rename_i hplain
        rcases ofEndRecord_eq_error.mp h with ⟨hbeyond, rfl⟩ |
          ⟨headers, rest, hlists, hlength, hnone, rfl⟩
        · exact .beyond hchosen hplain hbeyond
        · exact .unlisted hchosen hplain hlists hlength hnone
    · have hnone (position : Nat) (record : EndRecord) :
          ¬EndRecord.Chosen image position record := fun h => hsome ⟨position, record, h⟩
      rw [read_of_none hnone] at h
      obtain rfl := Except.error.inj h
      exact .unrecorded hnone
  · intro h
    cases h with
    | unrecorded hnone => exact read_of_none hnone
    | extended hchosen hextended => rw [read_of_chosen hchosen, if_pos hextended]
    | beyond hchosen hplain hbeyond =>
      rw [read_of_chosen hchosen, if_neg hplain]
      exact ofEndRecord_eq_error.mpr (.inl ⟨hbeyond, rfl⟩)
    | unlisted hchosen hplain hlists hlength hnone =>
      rw [read_of_chosen hchosen, if_neg hplain]
      exact ofEndRecord_eq_error.mpr (.inr ⟨_, _, hlists, hlength, hnone, rfl⟩)

end

theorem Rejected.fault_cases {image : ByteArray} {fault : Fault} (h : Rejected image fault) :
    fault = .endRecordNotFound ∨ fault = .oversize .endRecord ∨
      (∃ part offset, fault = .truncated part offset) ∨
      ∃ actual offset, fault = .badSignature DirectoryHeader.signature actual offset := by
  cases h with
  | unrecorded hnone => exact .inl rfl
  | extended hchosen hextended => exact .inr (.inl rfl)
  | beyond hchosen hplain hbeyond => exact .inr (.inr (.inl ⟨_, _, rfl⟩))
  | unlisted hchosen hplain hlists hlength hnone =>
    unfold Entry.headerFault
    split
    · exact .inr (.inr (.inr ⟨_, _, rfl⟩))
    · exact .inr (.inr (.inl ⟨_, _, rfl⟩))

end Directory

namespace Archive

/-- An image can be opened just when a record is chosen that is not one of a 64-bit archive, does
not point behind itself, and has as many headers in front of it as it counts. The archive has their
fields and the comment that the record declares. Any other image is rejected for what is wrong with
it, which is one of four faults and makes it malformed unless it is a 64-bit archive. To find this
out takes no access out of the bounds of the image, or of a part that was read of it. -/
theorem ofBytes_exact (image : ByteArray) :
    (∀ archive, ofBytes image = .ok archive ↔
      ∃ position record headers rest, EndRecord.Chosen image position record ∧
        ¬EndRecord.Extended image position record ∧
        Directory.Lists image record.directoryOffset.toNat position headers rest ∧
        headers.length = record.entries.toNat ∧
        archive = ⟨memoryName, Directory.ofHeaders image position record headers, some image⟩) ∧
    (∀ fault, ofBytes image = .error fault ↔ Directory.Rejected image fault) ∧
    (∀ fault, ofBytes image = .error fault →
      (fault = .endRecordNotFound ∨ fault = .oversize .endRecord ∨
        (∃ part offset, fault = .truncated part offset) ∨
        ∃ actual offset, fault = .badSignature DirectoryHeader.signature actual offset) ∧
      (fault.isMalformed = true ↔ fault ≠ .oversize .endRecord)) ∧
    Guarded.read image = some (Directory.read image) := by
  have herror (fault : Fault) : ofBytes image = .error fault ↔ Directory.Rejected image fault := by
    rw [ofBytes_eq_error, Directory.read_eq_error]
  refine ⟨fun archive => ?_, herror, fun fault hfault => ?_, Guarded.read_eq image⟩
  · rw [ofBytes_ok]
    constructor
    · rintro ⟨directory, hread, rfl⟩
      obtain ⟨position, record, headers, rest, hchosen, hplain, hlists, hlength, rfl⟩ :=
        Directory.read_eq_ok.mp hread
      exact ⟨position, record, headers, rest, hchosen, hplain, hlists, hlength, rfl⟩
    · rintro ⟨position, record, headers, rest, hchosen, hplain, hlists, hlength, rfl⟩
      exact ⟨_, Directory.read_eq_ok.mpr
        ⟨position, record, headers, rest, hchosen, hplain, hlists, hlength, rfl⟩, rfl⟩
  · have hcases := ((herror fault).mp hfault).fault_cases
    refine ⟨hcases, ?_⟩
    rcases hcases with rfl | rfl | ⟨part, offset, rfl⟩ | ⟨actual, offset, rfl⟩ <;>
      simp [Fault.isMalformed]

def bareHeader : ListedHeader where
  header := { DirectoryHeader.decode (zeros DirectoryHeader.bodySize) with nameLength := 1 }
  name := "a".toUTF8
  extra := ByteArray.empty
  comment := ByteArray.empty

def bareImage (count : UInt16) : ByteArray :=
  bareHeader.bytes ++ (EndRecord.ofSingleDisk count 47 0 0).ending ByteArray.empty

theorem ofBytes_exact_bare :
    (∃ archive, ofBytes (bareImage 1) = .ok archive ∧
      archive.directory.entries = #[bareHeader.entry 0]) ∧
    ofBytes (bareImage 2) = .error (.truncated .directoryHeader 47) := by
  have hchosen (count : UInt16) : EndRecord.Chosen (bareImage count) 47
      (EndRecord.ofSingleDisk count 47 0 0) :=
    EndRecord.chosen_ending rfl bareHeader.bytes (EndRecord.unrivalled_zero _)
  have hplain (count : UInt16) (hfew : count ≠ 0xFFFF) :
      ¬EndRecord.Extended (bareImage count) 47 (EndRecord.ofSingleDisk count 47 0 0) := fun h => by
    have hsentinel := h.1
    simp [EndRecord.hasSentinel, EndRecord.ofSingleDisk, hfew] at hsentinel
  have hfits : ∀ listed ∈ [bareHeader], listed.Fits := by
    simpa using ListedHeader.Fits.mk rfl rfl rfl
  have hbytes (count : UInt16) : slice (bareImage count) 0 47 =
      ListedHeader.pack [bareHeader] ++ ByteArray.empty := by
    have hsize : 47 = bareHeader.bytes.size := by decide
    rw [bareImage, hsize, slice_append_left (by decide), slice_eq_self]
    simp
  have hlists (count : UInt16) : Directory.Lists (bareImage count) 0 47 [bareHeader]
      ByteArray.empty := ⟨Nat.zero_le _, hfits, hbytes count⟩
  refine ⟨⟨_, ((ofBytes_exact (bareImage 1)).1 _).mpr ⟨47, _, [bareHeader], _, hchosen 1,
    hplain 1 (by decide), hlists 1, rfl, rfl⟩, rfl⟩, ?_⟩
  refine ((ofBytes_exact (bareImage 2)).2.1 _).mpr (.unlisted (hchosen 2) (hplain 2 (by decide))
    (hlists 2) (by decide) fun listed behind _ hmore => ?_)
  have hsize := congrArg ByteArray.size hmore
  rw [ByteArray.size_append, ListedHeader.size_bytes, ByteArray.size_empty] at hsize
  omega

end Archive

end ClassicZip
