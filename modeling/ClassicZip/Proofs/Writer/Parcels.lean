import ClassicZip.Writer
import ClassicZip.Proofs.Archive.Opened
import ClassicZip.Proofs.Bytes.Overwriting

/-!
# Entries are packed back to back

What a writer puts down for one entry is a parcel: local header, name, extra field and data. A
successful `push` appends one parcel to the image and one entry to the draft. Every parcel of an
image can be read, whatever stands before and behind it.
-/

namespace ClassicZip

open Bytes

/-- What stands in an archive for one entry. -/
structure Parcel where
  entry : Entry
  extra : ByteArray
  stored : ByteArray

namespace Parcel

def bytes (parcel : Parcel) : ByteArray :=
  Draft.headerBytes parcel.entry parcel.extra ++ parcel.stored

def pack (parcels : List Parcel) : ByteArray := concat (parcels.map bytes)

/-- The entry says where its parcel lies and how long the data is, and all lengths fit their
fields. -/
structure At (parcel : Parcel) (offset : Nat) : Prop where
  localOffset_eq : parcel.entry.localOffset.toNat = offset
  storedSize_eq : parcel.entry.storedSize.toNat = parcel.stored.size
  name_le : parcel.entry.name.size ≤ maxLength
  extra_le : parcel.extra.size ≤ maxLength

def Packed (offset : Nat) : List Parcel → Prop
  | [] => True
  | parcel :: rest => parcel.At offset ∧ Packed (offset + parcel.bytes.size) rest

/-- An archive that has its directory in front of the parcels. A reader follows the offsets, so it
takes such an archive like any other. -/
def behindDirectory (parcels : List Parcel) (comment : ByteArray) : ByteArray :=
  Entry.listing (parcels.map (·.entry)) ++ (pack parcels ++
    (EndRecord.ofListing (parcels.map (·.entry)) 0 comment).ending comment)

def letter (index : Nat) (name : String) (offset : UInt32) (flags : UInt16) : Parcel where
  entry := {
    index := index
    name := name.toUTF8
    comment := ByteArray.empty
    extra := ByteArray.empty
    method := .store
    storedSize := 1
    size := 1
    crc := 0x8cdc1683
    localOffset := offset
    modified := ⟨0, 33⟩
    versionMadeBy := Entry.ownVersion
    versionNeeded := 10
    flags := flags
    internalAttributes := 0
    externalAttributes := 0 }
  extra := ByteArray.empty
  stored := "x".toUTF8

@[simp] theorem pack_nil : pack [] = ByteArray.empty := rfl

@[simp] theorem pack_cons (parcel : Parcel) (rest : List Parcel) :
    pack (parcel :: rest) = parcel.bytes ++ pack rest := rfl

@[simp] theorem pack_append (front back : List Parcel) :
    pack (front ++ back) = pack front ++ pack back := by
  simp [pack]

theorem packed_append {offset : Nat} {front back : List Parcel} :
    Packed offset (front ++ back) ↔
      Packed offset front ∧ Packed (offset + (pack front).size) back := by
  induction front generalizing offset with
  | nil => simp [Packed]
  | cons parcel front ih =>
    simp only [List.cons_append, Packed, ih, pack_cons, ByteArray.size_append, and_assoc,
      Nat.add_assoc]

theorem size_headerBytes (entry : Entry) (extra : ByteArray) :
    (Draft.headerBytes entry extra).size =
      LocalHeader.fixedSize + (entry.name.size + extra.size) := by
  simp [Draft.headerBytes, LocalHeader.fixedSize, Nat.add_assoc]

theorem size_pack_pos {parcels : List Parcel} (h : parcels ≠ []) : 0 < (pack parcels).size := by
  cases parcels with
  | nil => exact absurd rfl h
  | cons parcel rest =>
    have hpos : 0 < LocalHeader.fixedSize := by decide
    rw [pack_cons, ByteArray.size_append, bytes, ByteArray.size_append, size_headerBytes]
    omega

theorem size_bytes (parcel : Parcel) :
    parcel.bytes.size = LocalHeader.fixedSize +
      (parcel.entry.name.size + parcel.extra.size) + parcel.stored.size := by
  rw [bytes, ByteArray.size_append, size_headerBytes]

theorem image_eq (parcel : Parcel) (before more : ByteArray) :
    before ++ (parcel.bytes ++ more) =
      before ++ (le32 LocalHeader.signature ++
        ((parcel.entry.localHeader parcel.extra.size).encode ++
          (parcel.entry.name ++ (parcel.extra ++ (parcel.stored ++ more))))) := by
  simp only [bytes, Draft.headerBytes, ByteArray.append_assoc]

namespace At

variable {parcel : Parcel} {before : ByteArray}

theorem header_eq (h : parcel.At before.size) (more : ByteArray) :
    slice (before ++ (parcel.bytes ++ more)) (parcel.entry.localOffset.toNat + 4)
      LocalHeader.bodySize = (parcel.entry.localHeader parcel.extra.size).encode := by
  have hstart : parcel.entry.localOffset.toNat + 4 =
      (before ++ le32 LocalHeader.signature).size := by
    rw [h.localOffset_eq]
    simp
  rw [image_eq, ← ByteArray.append_assoc, hstart,
    ← LocalHeader.size_encode (parcel.entry.localHeader parcel.extra.size), slice_append_append]

theorem localNameLength_eq (h : parcel.At before.size) (more : ByteArray) :
    parcel.entry.localNameLength (before ++ (parcel.bytes ++ more)) = parcel.entry.name.size := by
  rw [Entry.localNameLength_eq, h.header_eq, LocalHeader.decode_encode]
  exact toNat_ofNat_of_le_maxLength h.name_le

theorem localExtraLength_eq (h : parcel.At before.size) (more : ByteArray) :
    parcel.entry.localExtraLength (before ++ (parcel.bytes ++ more)) = parcel.extra.size := by
  rw [Entry.localExtraLength_eq, h.header_eq, LocalHeader.decode_encode]
  exact toNat_ofNat_of_le_maxLength h.extra_le

theorem name_eq (h : parcel.At before.size) (more : ByteArray) :
    slice (before ++ (parcel.bytes ++ more))
      (parcel.entry.localOffset.toNat + LocalHeader.fixedSize) parcel.entry.name.size =
        parcel.entry.name := by
  have hstart : parcel.entry.localOffset.toNat + LocalHeader.fixedSize = (before ++
      le32 LocalHeader.signature ++ (parcel.entry.localHeader parcel.extra.size).encode).size := by
    rw [h.localOffset_eq]
    simp [LocalHeader.fixedSize, Nat.add_assoc]
  rw [image_eq, ← ByteArray.append_assoc, ← ByteArray.append_assoc, hstart, slice_append_append]

theorem storedAt (h : parcel.At before.size) (more : ByteArray) :
    parcel.entry.StoredAt (before ++ (parcel.bytes ++ more))
      ⟨parcel.extra, before.size + LocalHeader.fixedSize +
        (parcel.entry.name.size + parcel.extra.size)⟩ parcel.stored := by
  have hname := h.localNameLength_eq more
  have hextra := h.localExtraLength_eq more
  refine ⟨?_, ?_, ?_, ?_, ?_⟩
  · rw [image_eq, h.localOffset_eq, u32At_append_right (Nat.le_refl _), Nat.sub_self,
      u32At_le32_append]
  · rw [hname, hextra, h.localOffset_eq]
  · rw [Entry.dataEnd, h.storedSize_eq, ByteArray.size_append, ByteArray.size_append, size_bytes]
    dsimp only
    omega
  · have hstart : before.size + LocalHeader.fixedSize +
        (parcel.entry.name.size + parcel.extra.size) - parcel.extra.size =
          (before ++ le32 LocalHeader.signature ++
            (parcel.entry.localHeader parcel.extra.size).encode ++ parcel.entry.name).size := by
      simp [LocalHeader.fixedSize]
      omega
    rw [hextra, image_eq, hstart]
    rw [← ByteArray.append_assoc, ← ByteArray.append_assoc, ← ByteArray.append_assoc,
      slice_append_append]
  · have hstart : before.size + LocalHeader.fixedSize +
        (parcel.entry.name.size + parcel.extra.size) =
          (before ++ le32 LocalHeader.signature ++
            (parcel.entry.localHeader parcel.extra.size).encode ++ parcel.entry.name ++
              parcel.extra).size := by
      simp [LocalHeader.fixedSize]
      omega
    rw [h.storedSize_eq, image_eq, hstart]
    rw [← ByteArray.append_assoc, ← ByteArray.append_assoc, ← ByteArray.append_assoc,
      ← ByteArray.append_assoc, slice_append_append]

end At

theorem Packed.storedAt {before : ByteArray} {parcels : List Parcel} {parcel : Parcel}
    (h : Packed before.size parcels) (hp : parcel ∈ parcels) (more : ByteArray) :
    ∃ here : LocalEntry, here.extra = parcel.extra ∧
      parcel.entry.StoredAt (before ++ (pack parcels ++ more)) here parcel.stored := by
  induction parcels generalizing before with
  | nil => cases hp
  | cons first rest ih =>
    obtain ⟨hfirst, hrest⟩ := h
    rcases List.mem_cons.mp hp with rfl | hp
    · rw [pack_cons, ByteArray.append_assoc]
      exact ⟨_, rfl, hfirst.storedAt (pack rest ++ more)⟩
    · rw [← ByteArray.size_append] at hrest
      rw [pack_cons, ByteArray.append_assoc, ← ByteArray.append_assoc]
      exact ih hrest hp

theorem Packed.readRaw {before more : ByteArray} {parcels : List Parcel} {archive : Archive}
    (h : Packed before.size parcels) (ho : archive.On (before ++ (pack parcels ++ more))) :
    ∀ parcel ∈ parcels, archive.readRaw parcel.entry = .ok parcel.stored := by
  intro parcel hp
  obtain ⟨here, -, hstored⟩ := h.storedAt hp more
  exact ho.readRaw_ok.mpr ⟨here, hstored⟩

theorem Packed.readRaw_start {more : ByteArray} {parcels : List Parcel} {archive : Archive}
    (h : Packed 0 parcels) (ho : archive.On (pack parcels ++ more)) :
    ∀ parcel ∈ parcels, archive.readRaw parcel.entry = .ok parcel.stored := by
  have hstart : Packed ByteArray.empty.size parcels := h
  rw [← ByteArray.empty_append (b := pack parcels ++ more)] at ho
  exact hstart.readRaw ho

end Parcel

end ClassicZip
