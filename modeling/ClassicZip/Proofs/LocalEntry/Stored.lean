import ClassicZip.LocalEntry
import ClassicZip.Proofs.Cursor.Ahead

/-!
# Where the bytes of an entry lie

`readStored_ok` says byte for byte when an entry can be read from an image and what is read. So a
read depends on the bytes of the local header and of the data only, and an image that is extended
keeps all its entries.
-/

namespace ClassicZip

open Bytes

theorem Image.read_ok {image bytes : ByteArray} {activity : Activity} {offset count : Nat} :
    Image.read image activity offset count = .ok bytes ↔
      (count = 0 ∨ offset + count ≤ image.size) ∧ bytes = slice image offset count := by
  unfold Image.read
  split
  · rename_i h
    rw [Except.ok.injEq]
    constructor
    · rintro rfl; exact ⟨h, rfl⟩
    · rintro ⟨-, rfl⟩; rfl
  · rename_i h
    constructor
    · intro he; cases he
    · rintro ⟨hin, -⟩; exact absurd hin h

namespace Entry

/-- The lengths of name and extra field, in the local header at the entry's offset. -/
def localNameLength (image : ByteArray) (entry : Entry) : Nat :=
  (u16At image (entry.localOffset.toNat + 26)).toNat

def localExtraLength (image : ByteArray) (entry : Entry) : Nat :=
  (u16At image (entry.localOffset.toNat + 28)).toNat

def localDataOffset (image : ByteArray) (entry : Entry) : Nat :=
  entry.localOffset.toNat + LocalHeader.fixedSize +
    (entry.localNameLength image + entry.localExtraLength image)

/-- The image holds the entry's local header and, behind its name and extra field, the data. -/
structure StoredAt (image : ByteArray) (entry : Entry) (here : LocalEntry) (stored : ByteArray) :
    Prop where
  signature_eq : u32At image entry.localOffset.toNat = LocalHeader.signature
  dataOffset_eq : here.dataOffset = entry.localOffset.toNat + LocalHeader.fixedSize +
    (entry.localNameLength image + entry.localExtraLength image)
  dataEnd_le : entry.dataEnd here ≤ image.size
  extra_eq : here.extra =
    slice image (here.dataOffset - entry.localExtraLength image) (entry.localExtraLength image)
  stored_eq : stored = slice image here.dataOffset entry.storedSize.toNat

section
variable {image : ByteArray} {entry : Entry}

theorem localNameLength_eq : entry.localNameLength image =
    (LocalHeader.decode (slice image (entry.localOffset.toNat + 4)
      LocalHeader.bodySize)).nameLength.toNat := by
  simp only [LocalHeader.decode, localNameLength]
  rw [u16At_slice (by decide)]

theorem localExtraLength_eq : entry.localExtraLength image =
    (LocalHeader.decode (slice image (entry.localOffset.toNat + 4)
      LocalHeader.bodySize)).extraLength.toNat := by
  simp only [LocalHeader.decode, localExtraLength]
  rw [u16At_slice (by decide)]

theorem variableSize_decode :
    (LocalHeader.decode (slice (slice image entry.localOffset.toNat LocalHeader.fixedSize) 4
      LocalHeader.bodySize)).variableSize =
        entry.localNameLength image + entry.localExtraLength image := by
  rw [slice_slice (by decide), localNameLength_eq, localExtraLength_eq, LocalHeader.variableSize]

theorem extraLength_decode :
    (LocalHeader.decode (slice (slice image entry.localOffset.toNat LocalHeader.fixedSize) 4
      LocalHeader.bodySize)).extraLength.toNat = entry.localExtraLength image := by
  rw [slice_slice (by decide), localExtraLength_eq]

theorem locate_eq (image : ByteArray) (entry : Entry) : entry.locate image image.size =
    if image.size < entry.localOffset.toNat + LocalHeader.fixedSize then
      .error (.truncated .localHeader entry.localOffset.toNat)
    else if u32At image entry.localOffset.toNat ≠ LocalHeader.signature then
      .error (.badSignature LocalHeader.signature (u32At image entry.localOffset.toNat)
        entry.localOffset.toNat)
    else if image.size < entry.localDataOffset image then
      .error (.truncated .localHeader entry.localOffset.toNat)
    else .ok ⟨slice image (entry.localDataOffset image - entry.localExtraLength image)
      (entry.localExtraLength image), entry.localDataOffset image⟩ := by
  have hsig : u32At (slice image entry.localOffset.toNat LocalHeader.fixedSize) 0 =
      u32At image entry.localOffset.toNat := u32At_slice (by decide)
  rw [localDataOffset]
  simp only [locate, guard_eq]
  split
  · rfl
  · rename_i hfixed
    rw [Image.read_eq_ok .readingLocalHeader (Nat.le_of_not_lt hfixed), ok_bind]
    simp only [hsig, variableSize_decode, extraLength_decode]
    split
    · rfl
    · split
      · rfl
      · rename_i hdata
        rw [Image.read_eq_ok .readingLocalExtra (by omega), ok_bind]
        rfl

theorem locate_ok {here : LocalEntry} :
    entry.locate image image.size = .ok here ↔
      u32At image entry.localOffset.toNat = LocalHeader.signature ∧
      here.dataOffset = entry.localOffset.toNat + LocalHeader.fixedSize +
        (entry.localNameLength image + entry.localExtraLength image) ∧
      here.dataOffset ≤ image.size ∧
      here.extra = slice image (here.dataOffset - entry.localExtraLength image)
        (entry.localExtraLength image) := by
  obtain ⟨extra, dataOffset⟩ := here
  rw [locate_eq, localDataOffset]
  constructor
  · intro h
    split at h
    · cases h
    · split at h
      · cases h
      · rename_i hsig
        split at h
        · cases h
        · rename_i hdata
          obtain ⟨rfl, rfl⟩ := LocalEntry.mk.inj (Except.ok.inj h)
          exact ⟨Decidable.not_not.mp hsig, rfl, Nat.le_of_not_lt hdata, rfl⟩
  · rintro ⟨hsig, hoff, hdata, hextra⟩
    dsimp only at hoff hdata hextra
    subst hoff hextra
    rw [if_neg (by omega), if_neg (not_not_intro hsig), if_neg (Nat.not_lt_of_le hdata)]

theorem StoredAt.locate_eq {here : LocalEntry} {stored : ByteArray}
    (h : entry.StoredAt image here stored) : entry.locate image image.size = .ok here :=
  locate_ok.mpr ⟨h.signature_eq, h.dataOffset_eq,
    Nat.le_trans (Nat.le_add_right _ _) h.dataEnd_le, h.extra_eq⟩

theorem readStored_eq (image : ByteArray) (entry : Entry) : entry.readStored image image.size =
    entry.locate image image.size >>= fun here =>
      if image.size < entry.dataEnd here then .error (.truncated .entryData here.dataOffset)
      else .ok (here, slice image here.dataOffset entry.storedSize.toNat) := by
  simp only [readStored, guard_eq]
  congr 1
  funext here
  split
  · rfl
  · rename_i hdata
    rw [Image.read_eq_ok .readingEntryData (Nat.le_of_not_lt hdata)]
    rfl

theorem readStored_ok {here : LocalEntry} {stored : ByteArray} :
    entry.readStored image image.size = .ok (here, stored) ↔
      entry.StoredAt image here stored := by
  rw [readStored_eq, bind_eq_ok]
  constructor
  · rintro ⟨found, hlocate, h⟩
    obtain ⟨hsig, hoff, -, hextra⟩ := locate_ok.mp hlocate
    split at h
    · cases h
    · rename_i hend
      obtain ⟨rfl, rfl⟩ := Prod.mk.inj (Except.ok.inj h)
      exact ⟨hsig, hoff, Nat.le_of_not_lt hend, hextra, rfl⟩
  · intro h
    refine ⟨here, h.locate_eq, ?_⟩
    rw [if_neg (Nat.not_lt_of_le h.dataEnd_le), h.stored_eq]

-- ---------------------------------------------------------------------------
-- Other images
-- ---------------------------------------------------------------------------

theorem header_of_agree {other : ByteArray}
    (hb : ∀ index, entry.localOffset.toNat ≤ index →
      index < entry.localOffset.toNat + LocalHeader.fixedSize →
      byteAt other index = byteAt image index) :
    u32At other entry.localOffset.toNat = u32At image entry.localOffset.toNat ∧
      entry.localNameLength other = entry.localNameLength image ∧
      entry.localExtraLength other = entry.localExtraLength image := by
  simp only [LocalHeader.fixedSize, LocalHeader.bodySize] at hb
  refine ⟨u32At_congr ?_, congrArg UInt16.toNat (u16At_congr ?_),
    congrArg UInt16.toNat (u16At_congr ?_)⟩
  all_goals
    intro k hk
    exact hb _ (by omega) (by omega)

theorem StoredAt.of_agree {other : ByteArray} {here : LocalEntry} {stored : ByteArray}
    (h : entry.StoredAt image here stored) (hsize : image.size ≤ other.size)
    (hb : ∀ index, entry.localOffset.toNat ≤ index → index < entry.dataEnd here →
      byteAt other index = byteAt image index) : entry.StoredAt other here stored := by
  have hoff := h.dataOffset_eq
  have hend := h.dataEnd_le
  simp only [dataEnd] at hend hb
  obtain ⟨hsig, hname, hextra⟩ := header_of_agree fun index h1 h2 => hb index h1 (by omega)
  have hslice {start count : Nat} (h1 : entry.localOffset.toNat ≤ start)
      (h2 : start + count ≤ here.dataOffset + entry.storedSize.toNat) :
      slice image start count = slice other start count :=
    slice_congr (by omega) (by omega) fun index hfrom hto => (hb index (by omega) (by omega)).symm
  refine ⟨hsig.trans h.signature_eq, ?_, Nat.le_trans h.dataEnd_le hsize, ?_, ?_⟩
  · rw [hname, hextra]
    exact h.dataOffset_eq
  · rw [hextra, h.extra_eq]
    exact hslice (by omega) (by omega)
  · rw [h.stored_eq]
    exact hslice (by omega) (Nat.le_refl _)

theorem StoredAt.iff_of_header {other : ByteArray} {here : LocalEntry} {stored : ByteArray}
    (h : entry.StoredAt image here stored) (hsize : image.size ≤ other.size)
    (hb : ∀ index, entry.localOffset.toNat ≤ index →
      index < entry.localOffset.toNat + LocalHeader.fixedSize →
      byteAt other index = byteAt image index) :
    (∃ there, entry.StoredAt other there stored) ↔
      slice other here.dataOffset entry.storedSize.toNat = stored := by
  obtain ⟨hsig, hname, hextra⟩ := header_of_agree hb
  have hoff := h.dataOffset_eq
  rw [← hname, ← hextra] at hoff
  constructor
  · rintro ⟨there, hthere⟩
    rw [hthere.stored_eq, hthere.dataOffset_eq, hoff]
  · intro heq
    exact ⟨⟨slice other (here.dataOffset - entry.localExtraLength other)
      (entry.localExtraLength other), here.dataOffset⟩, hsig.trans h.signature_eq, hoff,
      Nat.le_trans h.dataEnd_le hsize, rfl, heq.symm⟩

theorem StoredAt.append {here : LocalEntry} {stored : ByteArray}
    (h : entry.StoredAt image here stored) (more : ByteArray) :
    entry.StoredAt (image ++ more) here stored :=
  h.of_agree (by simp) fun _ _ hi => byteAt_append_left (Nat.lt_of_lt_of_le hi h.dataEnd_le)

end

end Entry

end ClassicZip
