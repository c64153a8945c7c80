import ClassicZip.Proofs.Directory.Headers

/-!
# Listings read back

The listing of an entry gives the entry back when each variable part fits its length field and the
method is one that an id can name. Parsed entries are of this kind, so a parsed directory can be
written and read again.
-/

namespace ClassicZip

open Bytes

-- ---------------------------------------------------------------------------
-- One entry
-- ---------------------------------------------------------------------------

namespace Entry

/-- Nothing of the entry is lost in its listing. -/
structure Listable (entry : Entry) : Prop where
  name_le : entry.name.size ≤ maxLength
  extra_le : entry.extra.size ≤ maxLength
  comment_le : entry.comment.size ≤ maxLength
  method_eq : Method.ofId entry.method.id = entry.method

theorem size_directoryBytes (entry : Entry) :
    entry.directoryBytes.size = 46 + entry.name.size + entry.extra.size + entry.comment.size := by
  simp [directoryBytes, DirectoryHeader.bodySize]

theorem ofHeader_directoryHeader {entry : Entry} (h : entry.Listable) :
    ofHeader entry.index entry.directoryHeader entry.name entry.extra entry.comment = entry := by
  simp only [ofHeader, directoryHeader, h.method_eq]

def listed (entry : Entry) : ListedHeader :=
  ⟨entry.directoryHeader, entry.name, entry.extra, entry.comment⟩

theorem Listable.fits_listed {entry : Entry} (h : entry.Listable) : entry.listed.Fits where
  name_eq := toNat_ofNat_of_le_maxLength h.name_le
  extra_eq := toNat_ofNat_of_le_maxLength h.extra_le
  comment_eq := toNat_ofNat_of_le_maxLength h.comment_le

theorem Listable.directorySize_eq {entry : Entry} (h : entry.Listable) :
    entry.directorySize = entry.directoryBytes.size := by
  have hname : entry.directoryHeader.nameLength.toNat = entry.name.size := h.fits_listed.name_eq
  have hextra : entry.directoryHeader.extraLength.toNat = entry.extra.size := h.fits_listed.extra_eq
  have hcomment : entry.directoryHeader.commentLength.toNat = entry.comment.size :=
    h.fits_listed.comment_eq
  rw [size_directoryBytes, directorySize, DirectoryHeader.variableSize, hname, hextra, hcomment]
  simp only [DirectoryHeader.fixedSize, DirectoryHeader.bodySize]
  omega

theorem Listable.entry_listed {entry : Entry} (h : entry.Listable) :
    entry.listed.entry entry.index = entry := by
  rw [ListedHeader.entry, listed, ofHeader_directoryHeader h]

theorem listable_entry {listed : ListedHeader} (h : listed.Fits) (index : Nat) :
    (listed.entry index).Listable where
  name_le := h.name_eq ▸ toNat_le_maxLength _
  extra_le := h.extra_eq ▸ toNat_le_maxLength _
  comment_le := h.comment_eq ▸ toNat_le_maxLength _
  method_eq := by simp only [ListedHeader.entry, ofHeader, Method.id_ofId]

-- ---------------------------------------------------------------------------
-- Many entries
-- ---------------------------------------------------------------------------

def listing (entries : List Entry) : ByteArray := concat (entries.map directoryBytes)

theorem listing_append (front back : List Entry) :
    listing (front ++ back) = listing front ++ listing back := by
  simp only [listing, List.map_append, concat_append]

theorem size_listing_le_of_sublist {some all : List Entry} (h : some.Sublist all) :
    (listing some).size ≤ (listing all).size := by
  induction h with
  | slnil => exact Nat.le_refl _
  | cons entry _ ih =>
    simp only [listing, List.map_cons, concat_cons, ByteArray.size_append] at ih ⊢
    exact Nat.le_trans ih (Nat.le_add_left _ _)
  | cons_cons entry _ ih =>
    simp only [listing, List.map_cons, concat_cons, ByteArray.size_append] at ih ⊢
    exact Nat.add_le_add_left ih _

def NumberedFrom (first : Nat) : List Entry → Prop
  | [] => True
  | entry :: rest => entry.index = first ∧ NumberedFrom (first + 1) rest

theorem numberedFrom_append {first : Nat} {front back : List Entry} :
    NumberedFrom first (front ++ back) ↔
      NumberedFrom first front ∧ NumberedFrom (first + front.length) back := by
  induction front generalizing first with
  | nil => simp [NumberedFrom]
  | cons entry front ih =>
    simp only [List.cons_append, NumberedFrom, ih, List.length_cons, and_assoc]
    rw [show first + 1 + front.length = first + (front.length + 1) by omega]

theorem listing_eq_pack (entries : List Entry) :
    listing entries = ListedHeader.pack (entries.map listed) := by
  rw [ListedHeader.pack, List.map_map]
  rfl

theorem mapIdx_entry_listed {entries : List Entry} {first : Nat}
    (hl : ∀ entry ∈ entries, entry.Listable) (hn : NumberedFrom first entries) :
    ((entries.map listed).mapIdx fun index listed => listed.entry (first + index)) = entries := by
  induction entries generalizing first with
  | nil => rfl
  | cons entry entries ih =>
    rw [List.forall_mem_cons] at hl
    obtain ⟨rfl, hn⟩ := hn
    have hrest := ih hl.2 hn
    simp only [Nat.add_assoc, Nat.add_comm 1] at hrest
    rw [List.map_cons, List.mapIdx_cons, hrest, Nat.add_zero, hl.1.entry_listed]

theorem takeMany_listing (base : Nat) {entries : List Entry} (taken : Array Entry)
    {cursor : Cursor} {rest : ByteArray} (hl : ∀ entry ∈ entries, entry.Listable)
    (hn : NumberedFrom taken.size entries) (ha : cursor.Ahead (listing entries ++ rest)) :
    takeMany base entries.length cursor taken = .ok (taken ++ entries.toArray) := by
  have hfits : ∀ header ∈ entries.map listed, header.Fits := by
    rw [List.forall_mem_map]
    exact fun entry hentry => (hl entry hentry).fits_listed
  rw [listing_eq_pack] at ha
  have hmany := takeMany_ahead base taken hfits ha
  rwa [List.length_map, mapIdx_entry_listed hl hn] at hmany

theorem numberedFrom_entries (headers : List ListedHeader) (first : Nat) :
    NumberedFrom first (headers.mapIdx fun index listed => listed.entry (first + index)) := by
  induction headers generalizing first with
  | nil => trivial
  | cons listed rest ih =>
    have hrest := ih (first + 1)
    simp only [Nat.add_assoc, Nat.add_comm 1] at hrest
    rw [List.mapIdx_cons]
    exact ⟨rfl, hrest⟩

theorem listing_entries {headers : List ListedHeader} (h : ∀ listed ∈ headers, listed.Fits)
    (first : Nat) :
    listing (headers.mapIdx fun index listed => listed.entry (first + index)) =
      ListedHeader.pack (headers.map ListedHeader.onFirstDisk) := by
  induction headers generalizing first with
  | nil => rfl
  | cons listed rest ih =>
    rw [List.forall_mem_cons] at h
    have hrest := ih h.2 (first + 1)
    simp only [Nat.add_assoc, Nat.add_comm 1] at hrest
    rw [List.mapIdx_cons, listing, List.map_cons, concat_cons,
      ListedHeader.directoryBytes_entry h.1, ← listing, hrest]
    rfl

/-- Parsed entries can be listed. Their listing is what was parsed, but for the disks on which the
entries start. -/
theorem takeMany_ok {base count : Nat} {cursor : Cursor} {ahead : ByteArray}
    {taken result : Array Entry} (ha : cursor.Ahead ahead)
    (h : takeMany base count cursor taken = .ok result) :
    ∃ entries : List Entry, result = taken ++ entries.toArray ∧
      (∀ entry ∈ entries, entry.Listable) ∧ NumberedFrom taken.size entries ∧
      (listing entries).size ≤ ahead.size := by
  obtain ⟨headers, rest, -, hfits, rfl, rfl⟩ := (takeMany_eq_ok ha).mp h
  refine ⟨_, rfl, ?_, numberedFrom_entries headers taken.size, ?_⟩
  · intro entry hentry
    obtain ⟨position, hposition, rfl⟩ := List.mem_mapIdx.mp hentry
    exact listable_entry (hfits _ (List.getElem_mem hposition)) _
  · rw [listing_entries hfits, ListedHeader.size_pack_onFirstDisk, ByteArray.size_append]
    exact Nat.le_add_right _ _

end Entry

end ClassicZip
