import ClassicZip.Proofs.Archive.Reads
import ClassicZip.Proofs.Deletion.Untouched

/-!
# Descriptors behind the data

The signature of a data descriptor is optional, and only the first four bytes tell whether it is
there. A bare descriptor whose checksum equals the signature passes for a signed one.
`eraseInPlace_described` says that every other descriptor is removed exactly, and that behind this
one four bytes more are cleared, by which an entry that starts there is lost.
-/

namespace ClassicZip

open Bytes

namespace Entry

def descriptor (entry : Entry) (signed : Bool) : ByteArray :=
  (if signed then le32 descriptorSignature else ByteArray.empty) ++
    (le32 entry.crc ++ (le32 entry.storedSize ++ le32 entry.size))

def DescribedAt (image : ByteArray) (entry : Entry) (offset : Nat) (signed : Bool) : Prop :=
  slice image offset (entry.descriptor signed).size = entry.descriptor signed

/-- A bare descriptor that starts like a signed one. -/
def Misleads (entry : Entry) (signed : Bool) : Prop :=
  signed = false ∧ entry.crc = descriptorSignature

instance (entry : Entry) (signed : Bool) : Decidable (entry.Misleads signed) :=
  inferInstanceAs (Decidable (_ ∧ _))

def takenSize (entry : Entry) (signed : Bool) : Nat :=
  (entry.descriptor signed).size + if entry.Misleads signed then 4 else 0

section
variable {image : ByteArray} {entry : Entry} {offset : Nat} {signed : Bool}

theorem size_descriptor : (entry.descriptor signed).size =
    if signed then descriptorSize + 4 else descriptorSize := by
  cases signed <;> simp [descriptor, descriptorSize]

theorem DescribedAt.fits (h : entry.DescribedAt image offset signed) :
    offset + (entry.descriptor signed).size ≤ image.size := by
  have hsize := congrArg ByteArray.size h
  have hpos : descriptorSize ≤ (entry.descriptor signed).size := by
    cases signed <;> simp [size_descriptor]
  simp only [slice, ByteArray.size_extract, descriptorSize] at hsize hpos
  omega

theorem DescribedAt.u32At_eq (h : entry.DescribedAt image offset signed) :
    u32At image offset = if signed then descriptorSignature else entry.crc := by
  have hword : u32At (slice image offset (entry.descriptor signed).size) 0 = u32At image offset :=
    u32At_slice (by cases signed <;> simp [size_descriptor, descriptorSize])
  rw [← hword, h]
  cases signed <;> simp [descriptor]

theorem DescribedAt.descriptorLength_eq (h : entry.DescribedAt image offset signed) :
    descriptorLength image offset =
      if image.size < offset + entry.takenSize signed then .error (.truncated .dataDescriptor offset)
      else .ok (entry.takenSize signed) := by
  have hfits := h.fits
  have hword := h.u32At_eq
  have hroom : offset + 4 ≤ image.size := by
    rw [size_descriptor] at hfits
    cases signed <;> simp [descriptorSize] at hfits <;> omega
  have htaken : (if (decide (offset + 4 ≤ image.size) && u32At image offset == descriptorSignature)
      then descriptorSize + 4 else descriptorSize) = entry.takenSize signed := by
    cases signed with
    | true => simp [hroom, hword, takenSize, size_descriptor, Misleads]
    | false =>
      by_cases hcrc : entry.crc = descriptorSignature <;>
        simp [hroom, hword, takenSize, size_descriptor, Misleads, hcrc]
  simp only [descriptorLength, htaken]

theorem extent_of_described {here : LocalEntry} {stored : ByteArray}
    (h : entry.StoredAt image here stored) (hflag : entry.flags &&& descriptorFlag ≠ 0)
    (hd : entry.DescribedAt image (entry.dataEnd here) signed) :
    entry.extent image =
      if image.size < entry.dataEnd here + entry.takenSize signed then
        .error (.truncated .dataDescriptor (entry.dataEnd here))
      else .ok (entry.localOffset.toNat,
        entry.dataEnd here + entry.takenSize signed - entry.localOffset.toNat) := by
  simp only [extent, h.locate_eq, ok_bind, if_neg (Nat.not_lt_of_le h.dataEnd_le), if_neg hflag,
    hd.descriptorLength_eq]
  split <;> rfl

end

end Entry

namespace Draft

theorem findErasable_eq {draft : Draft} {name : String} {position : Nat} {entry : Entry}
    (image : ByteArray) (hposition : draft.position? name.toUTF8 = some position)
    (hat : draft.entries[position]? = some entry) :
    draft.findErasable image name =
      (entry.extent image).map fun extent => (position, extent) := by
  simp only [findErasable, hposition, hat]
  cases entry.extent image <;> rfl

end Draft

-- ---------------------------------------------------------------------------
-- A range of zeros
-- ---------------------------------------------------------------------------

/-- The image with zeros from `start` up to `stop`. -/
structure Zeroed (image : ByteArray) (start stop : Nat) (after : ByteArray) : Prop where
  size_eq : after.size = image.size
  byteAt_eq : ∀ index, byteAt after index =
    if start ≤ index ∧ index < stop then 0 else byteAt image index

namespace Zeroed

theorem of_zeroFill {image : ByteArray} {start stop : Nat} (hle : start ≤ stop)
    (hfit : stop ≤ image.size) : Zeroed image start stop (zeroFill image start (stop - start)) where
  size_eq := size_zeroFill (by omega)
  byteAt_eq := by
    intro index
    rw [byteAt_zeroFill_eq (Nat.le_trans hle hfit), Nat.add_sub_cancel' hle]

section
variable {image after : ByteArray} {start stop : Nat} (h : Zeroed image start stop after)
include h

theorem agrees_iff {first : Nat} (hfirst : start ≤ first) :
    (∀ index, first ≤ index → byteAt after index = byteAt image index) ↔
      ∀ index, first ≤ index → index < stop → byteAt image index = 0 := by
  constructor
  · intro hagree index hfrom hto
    rw [← hagree index hfrom, h.byteAt_eq, if_pos ⟨Nat.le_trans hfirst hfrom, hto⟩]
  · intro hzero index hfrom
    rw [h.byteAt_eq]
    split
    · rename_i hin
      exact (hzero index hfrom hin.2).symm
    · rfl

theorem keptAs [Codec.Coders] {other : Entry} (hbehind : stop ≤ other.localOffset.toNat)
    (index : Nat) : other.KeptAs image after { other with index := index } := by
  refine Entry.keptAs_of_agree h.size_eq (fun place hcovers => ?_) index
  rw [h.byteAt_eq, if_neg fun hin => Nat.not_lt_of_le (Nat.le_trans hbehind hcovers.1) hin.2]

theorem readRaw_eq {archive : Archive} (ho : archive.On after) {other : Entry}
    (hfrom : start ≤ other.localOffset.toNat) (hto : other.localOffset.toNat + 4 ≤ stop)
    (hfit : other.localOffset.toNat + LocalHeader.fixedSize ≤ image.size) :
    archive.readRaw other =
      .error (.badSignature LocalHeader.signature 0 other.localOffset.toNat) := by
  refine ho.readRaw_cleared (h.size_eq ▸ hfit) (u32At_eq_zero fun k hk => ?_)
  rw [h.byteAt_eq, if_pos (by omega)]

end

end Zeroed

namespace Writer

/-- Of an entry that its descriptor follows, a deletion in place clears just the bytes from the
local header to the end of the descriptor, signed or bare, and all entries behind are read as
before. Only where a bare descriptor starts with the signature's value, four bytes more are
cleared: they were zero already or the deletion is not exact, and an entry that starts there is
lost. A deletion fails only where these bytes are not there. -/
theorem eraseInPlace_described [Codec.Coders] {draft : Draft} {image : ByteArray}
    {name : String} {position : Nat} {entry : Entry} {here : LocalEntry} {stored : ByteArray}
    {signed : Bool}
    (hposition : draft.position? name.toUTF8 = some position)
    (hat : draft.entries[position]? = some entry)
    (hflag : entry.flags &&& Entry.descriptorFlag ≠ 0)
    (hread : entry.readStored image image.size = .ok (here, stored))
    (hdescribed : entry.DescribedAt image (entry.dataEnd here) signed) :
    (¬entry.Misleads signed → entry.dataEnd here + entry.takenSize signed ≤ image.size) ∧
    (image.size < entry.dataEnd here + entry.takenSize signed →
      eraseInPlace ⟨draft, some image⟩ name =
        (⟨draft, some image⟩, .error (.truncated .dataDescriptor (entry.dataEnd here)))) ∧
    (entry.dataEnd here + entry.takenSize signed ≤ image.size →
      ∃ after, eraseInPlace ⟨draft, some image⟩ name =
          (⟨draft.remove position, some after⟩, .ok ()) ∧
        Zeroed image entry.localOffset.toNat (entry.dataEnd here + entry.takenSize signed) after ∧
        ((∀ index, entry.dataEnd here + (entry.descriptor signed).size ≤ index →
            byteAt after index = byteAt image index) ↔
          ∀ index, entry.dataEnd here + (entry.descriptor signed).size ≤ index →
            index < entry.dataEnd here + entry.takenSize signed → byteAt image index = 0) ∧
        (¬entry.Misleads signed → ∀ other : Entry,
          entry.dataEnd here + (entry.descriptor signed).size ≤ other.localOffset.toNat →
            ∀ index, other.KeptAs image after { other with index := index }) ∧
        (entry.Misleads signed → ∀ other : Entry,
          other.localOffset.toNat = entry.dataEnd here + (entry.descriptor signed).size →
          other.localOffset.toNat + LocalHeader.fixedSize ≤ image.size →
            ∀ archive : Archive, archive.On after → archive.readRaw other =
              .error (.badSignature LocalHeader.signature 0 other.localOffset.toNat))) := by
  have hstored := Entry.readStored_ok.mp hread
  have hfound := Draft.findErasable_eq image hposition hat
  rw [Entry.extent_of_described hstored hflag hdescribed] at hfound
  have hstart := hstored.localOffset_le
  refine ⟨fun hplain => ?_, ?_, ?_⟩
  · rw [Entry.takenSize, if_neg hplain]
    exact hdescribed.fits
  · intro hshort
    rw [if_pos hshort] at hfound
    simp only [eraseInPlace, hfound, Except.map]
  · intro hroom
    rw [if_neg (Nat.not_lt_of_le hroom)] at hfound
    have hzeroed := Zeroed.of_zeroFill (Nat.le_add_right_of_le hstart) hroom
    refine ⟨_, by simp only [eraseInPlace, hfound, Except.map], hzeroed,
      hzeroed.agrees_iff (Nat.le_add_right_of_le hstart), ?_, ?_⟩
    · intro hplain other hbehind index
      refine hzeroed.keptAs ?_ index
      rwa [Entry.takenSize, if_neg hplain]
    · intro hmisled other hoffset hfit archive ho
      refine hzeroed.readRaw_eq ho ?_ ?_ hfit
      · rw [hoffset]
        exact Nat.le_add_right_of_le hstart
      · rw [hoffset, Entry.takenSize, if_pos hmisled]
        exact Nat.le_of_eq (Nat.add_assoc _ _ _)

def followed (first : Parcel) (signed : Bool) : List Parcel :=
  let described := { first with stored := first.stored ++ first.entry.descriptor signed }
  [described, .letter 1 "b" (UInt32.ofNat described.bytes.size) 0]

def followedImage (first : Parcel) (signed : Bool) : ByteArray :=
  Parcel.pack (followed first signed) ++
    Directory.encode ((followed first signed).map Parcel.entry)
      (Parcel.pack (followed first signed)).size ByteArray.empty

def followedDirectory (first : Parcel) (signed : Bool) : Directory where
  entries := ((followed first signed).map Parcel.entry).toArray
  comment := ByteArray.empty
  offset := (Parcel.pack (followed first signed)).size
  imageSize := (followedImage first signed).size

def announced : Parcel := .letter 0 "a" 0 Entry.descriptorFlag

/-- The second file is kept when the first one goes with its bare descriptor. -/
theorem eraseInPlace_described_announced :
    ∃ start after, ofBytes (followedImage announced false) = .ok start ∧
      start.eraseInPlace "a" = (⟨start.draft.remove 0, some after⟩, .ok ()) ∧
      Zeroed (followedImage announced false) 0 44 after ∧
      (Parcel.letter 1 "b" 44 0).entry.KeptAs (followedImage announced false) after
        (Parcel.letter 0 "b" 44 0).entry := by
  have hread : Directory.read (followedImage announced false) =
      .ok (followedDirectory announced false) := by
    decide +kernel
  have hcheck : (announced.entry.readStored (followedImage announced false)
      (followedImage announced false).size).toOption.map (fun found => found.1.dataOffset) =
        some 31 := by
    decide +kernel
  obtain ⟨⟨here, stored⟩, hfound, hoffset⟩ := Option.map_eq_some_iff.mp hcheck
  have hend : announced.entry.dataEnd here = 32 := congrArg (· + 1) hoffset
  have hposition : (Draft.goingOn (followedDirectory announced false)).position? "a".toUTF8 =
      some 0 := by
    decide +kernel
  have hat : (Draft.goingOn (followedDirectory announced false)).entries[0]? =
      some announced.entry := rfl
  have hdescribed : announced.entry.DescribedAt (followedImage announced false)
      (announced.entry.dataEnd here) false := by
    rw [hend]
    show slice _ _ _ = _
    decide +kernel
  have hplain : ¬announced.entry.Misleads false := by decide
  obtain ⟨hroom, -, hdone⟩ := eraseInPlace_described hposition hat (by decide)
    (toOption_eq_some.mp hfound) hdescribed
  obtain ⟨after, hresult, hzeroed, -, hkept, -⟩ := hdone (hroom hplain)
  rw [hend] at hzeroed hkept
  exact ⟨_, after, ofBytes_of_read hread, hresult, hzeroed,
    hkept hplain (Parcel.letter 1 "b" 44 0).entry (by decide) 0⟩

/-- Four bytes whose checksum is the signature of a descriptor. -/
def forged : Parcel where
  entry := { (Parcel.letter 0 "a" 0 Entry.descriptorFlag).entry with
    storedSize := 4, size := 4, crc := Entry.descriptorSignature }
  extra := ByteArray.empty
  stored := ⟨#[0xac, 0x0a, 0x7a, 0xd5]⟩

theorem read_forged : Directory.read (followedImage forged false) =
    .ok (followedDirectory forged false) := by
  decide +kernel

theorem forged_described :
    ∃ here, forged.entry.readStored (followedImage forged false)
        (followedImage forged false).size = .ok (here, forged.stored) ∧
      forged.entry.dataEnd here = 35 ∧
      forged.entry.DescribedAt (followedImage forged false) (forged.entry.dataEnd here) false := by
  have hcheck : (forged.entry.readStored (followedImage forged false)
      (followedImage forged false).size).toOption.map
        (fun found => (found.1.dataOffset, found.2)) = some (31, forged.stored) := by
    decide +kernel
  obtain ⟨⟨here, stored⟩, hfound, hpair⟩ := Option.map_eq_some_iff.mp hcheck
  obtain ⟨hoffset, rfl⟩ := Prod.mk.inj hpair
  have hend : forged.entry.dataEnd here = 35 := congrArg (· + 4) hoffset
  refine ⟨here, toOption_eq_some.mp hfound, hend, ?_⟩
  rw [hend]
  show slice _ _ _ = _
  decide +kernel

theorem forged_erased :
    ∃ writer bytes, eraseInPlace ⟨.goingOn (followedDirectory forged false),
        some (followedImage forged false)⟩ "a" = (writer, .ok ()) ∧
      writer.toBytes = .ok bytes ∧
      Directory.read bytes =
        .ok ⟨#[(Parcel.letter 0 "b" 47 0).entry], ByteArray.empty, 126, 195⟩ ∧
      u32At bytes 47 = 0 := by
  have hfinds : (Draft.goingOn (followedDirectory forged false)).findErasable
      (followedImage forged false) "a" = .ok (0, 0, 51) := by
    decide +kernel
  have hdone := eraseInPlace_eq hfinds (Nat.zero_le _)
  generalize hafter : (followedImage forged false).extract 0 0 ++ zeros 51 ++
    (followedImage forged false).extract (0 + 51) (followedImage forged false).size = after at hdone
  generalize hdraft : (Draft.goingOn (followedDirectory forged false)).remove 0 = draft at hdone
  have hcursor : draft.cursor = after.size ∧ draft.bodyEnd ≤ draft.cursor := by
    rw [← hdraft, ← hafter]
    decide +kernel
  have hlimits : draft.entries.size ≤ maxLength ∧ (draft.finished after).size ≤ maxOffset := by
    rw [← hdraft, ← hafter]
    decide +kernel
  refine ⟨_, _, hdone, (toBytes_ok hcursor.1 hcursor.2).mpr ⟨hlimits.1, hlimits.2, rfl⟩, ?_⟩
  rw [← hdraft, ← hafter]
  constructor <;> decide +kernel

/-- A bare descriptor misleads, and the file right behind it is lost with the one that is
deleted. -/
theorem forged_loses_neighbour :
    ∃ start here writer bytes old new, ofBytes (followedImage forged false) = .ok start ∧
      crc32 forged.stored = forged.entry.crc ∧
      forged.entry.readStored (followedImage forged false) (followedImage forged false).size =
        .ok (here, forged.stored) ∧
      forged.entry.DescribedAt (followedImage forged false) (forged.entry.dataEnd here) false ∧
      (Parcel.letter 1 "b" 47 0).entry.localOffset.toNat =
        forged.entry.dataEnd here + (forged.entry.descriptor false).size ∧
      start.eraseInPlace "a" = (writer, .ok ()) ∧ writer.toBytes = .ok bytes ∧
      Archive.ofBytes (followedImage forged false) = .ok old ∧ Archive.ofBytes bytes = .ok new ∧
      old.entries = .ok #[forged.entry, (Parcel.letter 1 "b" 47 0).entry] ∧
      old.readRaw (Parcel.letter 1 "b" 47 0).entry = .ok "x".toUTF8 ∧
      new.entries = .ok #[(Parcel.letter 0 "b" 47 0).entry] ∧
      new.readRaw (Parcel.letter 0 "b" 47 0).entry =
        .error (.badSignature LocalHeader.signature 0 47) := by
  obtain ⟨here, hfound, hend, hdescribed⟩ := forged_described
  obtain ⟨writer, bytes, hdone, hclose, hreread, hcleared⟩ := forged_erased
  obtain ⟨hopen, hon⟩ := Archive.on_of_read hreread
  have hsize : 195 = bytes.size := hon.imageSize_eq
  refine ⟨_, here, writer, bytes, _, _, ofBytes_of_read read_forged, by decide +kernel, hfound,
    hdescribed, ?_, hdone, hclose, (Archive.on_of_read read_forged).1, hopen, rfl, ?_, rfl, ?_⟩
  · rw [hend]
    decide +kernel
  · decide +kernel
  · exact hon.readRaw_cleared (hsize ▸ by decide) hcleared

end Writer

end ClassicZip
