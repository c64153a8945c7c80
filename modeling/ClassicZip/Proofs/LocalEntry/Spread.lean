import ClassicZip.Proofs.Deletion.Erasing
import ClassicZip.Proofs.Writer.Parcels

/-!
# Entries that lie one behind the other

Entries are spread over an image when each of them is there with a local header that says the same
as the entry, starts behind the end of the one before, and has no descriptor. There may be gaps.
Packed parcels are spread, and entries stay spread where the image does not change, when others
follow, and when one of them is erased.
-/

namespace ClassicZip

open Bytes

namespace Entry

/-- The image holds the entry, and the local header there says the same as the entry. No descriptor
follows the data. -/
structure FaithfulAt (image : ByteArray) (entry : Entry) (here : LocalEntry)
    (stored : ByteArray) : Prop extends entry.StoredAt image here stored where
  header_eq : LocalHeader.decode (slice image (entry.localOffset.toNat + 4) LocalHeader.bodySize) =
    entry.localHeader here.extra.size
  name_eq : slice image (entry.localOffset.toNat + LocalHeader.fixedSize)
    (entry.localNameLength image) = entry.name
  flags_eq : entry.flags &&& descriptorFlag = 0

/-- From `start` up to `stop` the image holds the entries in their order, one behind the other. -/
def Spread (image : ByteArray) (stop : Nat) : Nat → List Entry → Prop
  | start, [] => start ≤ stop
  | start, entry :: rest => start ≤ entry.localOffset.toNat ∧
      ∃ here stored, entry.FaithfulAt image here stored ∧ Spread image stop (entry.dataEnd here) rest

section
variable {image other stored : ByteArray} {entry : Entry} {here : LocalEntry}

theorem StoredAt.dataOffset_le (h : entry.StoredAt image here stored) :
    entry.localOffset.toNat + LocalHeader.fixedSize + entry.localNameLength image ≤
      here.dataOffset := by
  rw [h.dataOffset_eq]
  omega

theorem StoredAt.dataOffset_le_dataEnd (_ : entry.StoredAt image here stored) :
    here.dataOffset ≤ entry.dataEnd here :=
  Nat.le_add_right _ _

theorem StoredAt.localOffset_le (h : entry.StoredAt image here stored) :
    entry.localOffset.toNat ≤ entry.dataEnd here := by
  have hdata := h.dataOffset_le
  have hend := h.dataOffset_le_dataEnd
  omega

theorem StoredAt.dataEnd_unique {there : LocalEntry} {more : ByteArray}
    (h : entry.StoredAt image here stored) (hthere : entry.StoredAt image there more) :
    entry.dataEnd there = entry.dataEnd here := by
  rw [dataEnd, dataEnd, h.dataOffset_eq, hthere.dataOffset_eq]

theorem FaithfulAt.of_agree (h : entry.FaithfulAt image here stored)
    (hsize : image.size ≤ other.size)
    (hb : ∀ index, entry.localOffset.toNat ≤ index → index < entry.dataEnd here →
      byteAt other index = byteAt image index) : entry.FaithfulAt other here stored := by
  have hname := h.dataOffset_le
  have hdata := h.dataOffset_le_dataEnd
  have hend := h.dataEnd_le
  have hfixed : LocalHeader.fixedSize = 4 + LocalHeader.bodySize := rfl
  have hlength : entry.localNameLength other = entry.localNameLength image :=
    (header_of_agree fun index h1 h2 => hb index h1 (by omega)).2.1
  refine ⟨h.toStoredAt.of_agree hsize hb, ?_, ?_, h.flags_eq⟩
  · rw [← h.header_eq]
    congr 1
    exact slice_congr (by omega) (by omega) fun index h1 h2 => hb index (by omega) (by omega)
  · rw [hlength, ← h.name_eq]
    exact slice_congr (by omega) (by omega) fun index h1 h2 => hb index (by omega) (by omega)

end

-- ---------------------------------------------------------------------------
-- Spread entries
-- ---------------------------------------------------------------------------

namespace Spread

section
variable {image other : ByteArray} {start stop : Nat} {entries : List Entry}

theorem start_le_stop (h : Spread image stop start entries) : start ≤ stop := by
  induction entries generalizing start with
  | nil => exact h
  | cons entry rest ih =>
    obtain ⟨hstart, here, stored, hentry, hrest⟩ := h
    exact Nat.le_trans hstart (Nat.le_trans hentry.localOffset_le (ih hrest))

theorem start_le (h : Spread image stop start entries) :
    ∀ entry ∈ entries, start ≤ entry.localOffset.toNat := by
  induction entries generalizing start with
  | nil => simp
  | cons entry rest ih =>
    obtain ⟨hstart, here, stored, hentry, hrest⟩ := h
    refine List.forall_mem_cons.mpr ⟨hstart, fun later hlater => ?_⟩
    exact Nat.le_trans hstart (Nat.le_trans hentry.localOffset_le (ih hrest later hlater))

theorem earlier (h : Spread image stop start entries) {earlier : Nat} (he : earlier ≤ start) :
    Spread image stop earlier entries := by
  cases entries with
  | nil => exact Nat.le_trans he h
  | cons entry rest => exact ⟨Nat.le_trans he h.1, h.2⟩

theorem append {middle : Nat} {back : List Entry} (h : Spread image middle start entries)
    (hback : Spread image stop middle back) : Spread image stop start (entries ++ back) := by
  induction entries generalizing start with
  | nil => exact hback.earlier h
  | cons entry rest ih =>
    obtain ⟨hstart, here, stored, hentry, hrest⟩ := h
    exact ⟨hstart, here, stored, hentry, ih hrest⟩

theorem later (h : Spread image stop start entries) {later : Nat} (hl : stop ≤ later) :
    Spread image later start entries := by
  rw [← List.append_nil entries]
  exact h.append hl

theorem of_agree (h : Spread image stop start entries) (hsize : image.size ≤ other.size)
    (hb : ∀ index, start ≤ index → index < stop → byteAt other index = byteAt image index) :
    Spread other stop start entries := by
  induction entries generalizing start with
  | nil => exact h
  | cons entry rest ih =>
    obtain ⟨hstart, here, stored, hentry, hrest⟩ := h
    have hnext := hentry.localOffset_le
    have hstop := hrest.start_le_stop
    exact ⟨hstart, here, stored,
      hentry.of_agree hsize fun index h1 h2 => hb index (by omega) (by omega),
      ih hrest fun index h1 h2 => hb index (by omega) h2⟩

theorem erase (h : Spread image stop start entries) {position : Nat} {entry : Entry}
    {here : LocalEntry} {stored : ByteArray} (hat : entries[position]? = some entry)
    (hstored : entry.StoredAt image here stored) (hsize : image.size ≤ other.size)
    (hb : ∀ index, index < entry.localOffset.toNat ∨ entry.dataEnd here ≤ index →
      byteAt other index = byteAt image index) :
    Spread other stop start (entries.eraseIdx position) := by
  induction entries generalizing start position with
  | nil => cases hat
  | cons first rest ih =>
    obtain ⟨hstart, there, bytes, hfirst, hrest⟩ := h
    -- What lies in front of the erased entry agrees up to its offset, the rest from its end on.
    cases position with
    | zero =>
      obtain rfl := Option.some.inj hat
      have hend := hstored.dataEnd_unique hfirst.toStoredAt
      have hnext := hfirst.localOffset_le
      have hkept := hrest.of_agree hsize fun index h1 _ => hb index (.inr (by omega))
      exact hkept.earlier (by omega)
    | succ position =>
      have hbehind := hrest.start_le entry (List.mem_of_getElem? hat)
      exact ⟨hstart, there, bytes,
        hfirst.of_agree hsize fun index _ h2 => hb index (.inl (by omega)), ih hrest hat⟩

theorem numberFrom (h : Spread image stop start entries) (first : Nat) :
    Spread image stop start (Entry.numberFrom first entries) := by
  induction entries generalizing start first with
  | nil => exact h
  | cons entry rest ih =>
    obtain ⟨hstart, here, stored, hentry, hrest⟩ := h
    exact ⟨hstart, here, stored, ⟨⟨hentry.signature_eq, hentry.dataOffset_eq, hentry.dataEnd_le,
      hentry.extra_eq, hentry.stored_eq⟩, hentry.header_eq, hentry.name_eq, hentry.flags_eq⟩,
      ih hrest (first + 1)⟩

theorem faithful (h : Spread image stop start entries) :
    ∀ entry ∈ entries, ∃ here stored, entry.FaithfulAt image here stored ∧
      entry.dataEnd here ≤ stop := by
  induction entries generalizing start with
  | nil => simp
  | cons entry rest ih =>
    obtain ⟨-, here, stored, hentry, hrest⟩ := h
    exact List.forall_mem_cons.mpr ⟨⟨here, stored, hentry, hrest.start_le_stop⟩, ih hrest⟩

theorem pairwise (h : Spread image stop start entries) :
    entries.Pairwise fun first second => ∀ here stored, first.StoredAt image here stored →
      first.dataEnd here ≤ second.localOffset.toNat := by
  induction entries generalizing start with
  | nil => exact .nil
  | cons entry rest ih =>
    obtain ⟨-, there, bytes, hentry, hrest⟩ := h
    refine .cons (fun second hsecond here stored hstored => ?_) (ih hrest)
    rw [hentry.toStoredAt.dataEnd_unique hstored]
    exact hrest.start_le second hsecond

end

end Spread

theorem NumberedFrom.index_eq {first : Nat} {entries : List Entry}
    (h : NumberedFrom first entries) {position : Nat} (hp : position < entries.length) :
    entries[position].index = first + position := by
  induction entries generalizing first position with
  | nil => cases hp
  | cons entry rest ih =>
    cases position with
    | zero => exact h.1
    | succ position =>
      rw [List.getElem_cons_succ, ih h.2 (Nat.lt_of_succ_lt_succ hp), Nat.add_assoc,
        Nat.add_comm 1]

end Entry

-- ---------------------------------------------------------------------------
-- Packed parcels
-- ---------------------------------------------------------------------------

namespace Parcel

theorem At.faithfulAt {parcel : Parcel} {before : ByteArray} (h : parcel.At before.size)
    (hflags : parcel.entry.flags &&& Entry.descriptorFlag = 0) (more : ByteArray) :
    parcel.entry.FaithfulAt (before ++ (parcel.bytes ++ more))
      ⟨parcel.extra, before.size + LocalHeader.fixedSize +
        (parcel.entry.name.size + parcel.extra.size)⟩ parcel.stored := by
  refine ⟨h.storedAt more, ?_, ?_, hflags⟩
  · rw [h.header_eq, LocalHeader.decode_encode]
  · rw [h.localNameLength_eq, h.name_eq]

theorem Packed.spread {before : ByteArray} {parcels : List Parcel}
    (h : Packed before.size parcels)
    (hflags : ∀ parcel ∈ parcels, parcel.entry.flags &&& Entry.descriptorFlag = 0)
    (more : ByteArray) :
    Entry.Spread (before ++ (pack parcels ++ more)) (before.size + (pack parcels).size) before.size
      (parcels.map (·.entry)) := by
  induction parcels generalizing before with
  | nil => exact Nat.le_add_right _ _
  | cons parcel rest ih =>
    rw [List.forall_mem_cons] at hflags
    obtain ⟨hparcel, hrest⟩ := h
    rw [← ByteArray.size_append] at hrest
    have hspread := ih hrest hflags.2
    rw [ByteArray.append_assoc, ByteArray.size_append, Nat.add_assoc,
      ← ByteArray.size_append] at hspread
    rw [pack_cons, ByteArray.append_assoc]
    refine ⟨Nat.le_of_eq hparcel.localOffset_eq.symm, _, _,
      hparcel.faithfulAt hflags.1 (pack rest ++ more), ?_⟩
    rw [Entry.dataEnd, hparcel.storedSize_eq]
    dsimp only
    rwa [Nat.add_assoc before.size, Nat.add_assoc before.size, ← size_bytes]

end Parcel

end ClassicZip
