import Mathlib.Data.List.Perm.Subperm
import ClassicZip.Proofs.Archive.Reads
import ClassicZip.Proofs.Deletion.Untouched
import ClassicZip.Proofs.Writer.Trimming

/-!
# Deletions in place that stop partway

Entries are deleted in place one after the other, until a name comes that no entry is left for. By
then zeros lie over just those that were deleted, in front of a directory that still lists them. The
directory is read from there as before, the entries that are left are read as before, and each of
the others has lost its local header.
-/

namespace ClassicZip

open Bytes

-- ---------------------------------------------------------------------------
-- What names take away
-- ---------------------------------------------------------------------------

namespace Entry

/-- What is left when entries with these names are deleted in turn, and the first of the names that
none was left for. -/
def strikeNames (left : List Entry) : List String → List Entry × Option String
  | [] => (left, none)
  | name :: rest =>
    if left.any fun entry => entry.name == name.toUTF8 then
      strikeNames (left.eraseP fun entry => entry.name == name.toUTF8) rest
    else (left, some name)

theorem strikeNames_missing {entries left : List Entry} {names : List String} {name : String}
    (h : strikeNames entries names = (left, some name)) :
    ∃ front rest, names = front ++ name :: rest ∧
      left = Operation.strikeAll Entry.name entries (front.map .eraseInPlace) ∧
      left.length + front.length = entries.length ∧
      ∀ entry ∈ left, entry.name ≠ name.toUTF8 := by
  induction names generalizing entries with
  | nil => cases h
  | cons first rest ih =>
    rw [strikeNames] at h
    split at h
    · rename_i hfound
      obtain ⟨front, behind, rfl, hleft, hlength, hmissing⟩ := ih h
      refine ⟨first :: front, behind, rfl, hleft, ?_, hmissing⟩
      obtain ⟨entry, hmem, hname⟩ := List.any_eq_true.mp hfound
      have hone : (entries.eraseP fun entry => entry.name == first.toUTF8).length =
          entries.length - 1 := List.length_eraseP_of_mem hmem hname
      have hpos := List.length_pos_of_mem hmem
      rw [List.length_cons]
      omega
    · rename_i hmissing
      obtain ⟨rfl, hname⟩ := Prod.mk.inj h
      obtain rfl := Option.some.inj hname
      refine ⟨[], rest, rfl, rfl, rfl, fun entry hmem heq => hmissing ?_⟩
      exact List.any_eq_true.mpr ⟨entry, hmem, by rw [heq]; exact beq_self_eq_true _⟩

end Entry

/-- The two archives read the entry alike: the same stored bytes and the same data, or the same
faults. -/
def Archive.ReadsAlike [Codec.Coders] (old new : Archive) (entry : Entry) : Prop :=
  new.readRaw entry = old.readRaw entry ∧ new.readData entry = old.readData entry

-- ---------------------------------------------------------------------------
-- Erased entries
-- ---------------------------------------------------------------------------

namespace Entry

/-- The image with zeros over the entries that are not left; all other bytes are the same. -/
structure Erased (image : ByteArray) (entries left : List Entry) (after : ByteArray) : Prop where
  sublist : left.Sublist entries
  size_eq : after.size = image.size
  kept : ∀ index, (∀ entry ∈ entries, entry.Covers image index → entry ∈ left) →
    byteAt after index = byteAt image index
  cleared : ∀ entry ∈ entries, entry ∉ left → ∀ index, entry.Covers image index →
    byteAt after index = 0

namespace Erased

section
variable {image before after : ByteArray} {start stop : Nat} {entries left : List Entry}
  {entry : Entry} {old new : Archive}

theorem refl (image : ByteArray) (entries : List Entry) : Erased image entries entries image where
  sublist := .refl entries
  size_eq := rfl
  kept := fun _ _ => rfl
  cleared := fun _ hmem hgone => absurd hmem hgone

theorem byteAt_of_left (h : Erased image entries left after) (hs : Spread image stop start entries)
    (hleft : entry ∈ left) {index : Nat} (hcovers : entry.Covers image index) :
    byteAt after index = byteAt image index := by
  refine h.kept index fun other hother hcovers' => ?_
  rwa [← hs.eq_of_covers (h.sublist.subset hleft) hother hcovers hcovers']

theorem storedAt (h : Erased image entries left after) (hs : Spread image stop start entries)
    (hleft : entry ∈ left) {here : LocalEntry} {stored : ByteArray}
    (hstored : entry.StoredAt image here stored) : entry.StoredAt after here stored :=
  hstored.of_agree (Nat.le_of_eq h.size_eq.symm) fun _ hfrom hto =>
    h.byteAt_of_left hs hleft (hstored.covers hfrom hto)

theorem erase (h : Erased image entries left before) (hs : Spread image stop start entries)
    (hleft : entry ∈ left) {here : LocalEntry} {stored : ByteArray}
    (hstored : entry.StoredAt image here stored) :
    Erased image entries (left.erase entry) (zeroFill before entry.localOffset.toNat
      (entry.dataEnd here - entry.localOffset.toNat)) := by
  have hnodup : left.Nodup := h.sublist.nodup hs.nodup
  have hstart := hstored.localOffset_le
  have hend := hstored.dataEnd_le
  have hfit : entry.localOffset.toNat + (entry.dataEnd here - entry.localOffset.toNat) ≤
      before.size := by
    rw [h.size_eq]
    omega
  refine ⟨List.erase_sublist.trans h.sublist, (size_zeroFill hfit).trans h.size_eq, ?_, ?_⟩
  · intro index hkept
    have houtside : ¬ entry.Covers image index := fun hcovers =>
      hnodup.not_mem_erase (hkept entry (h.sublist.subset hleft) hcovers)
    rw [byteAt_zeroFill (by omega) ?_]
    · exact h.kept index fun other hother hcovers =>
        List.mem_of_mem_erase (hkept other hother hcovers)
    · by_contra hinside
      exact houtside (hstored.covers (by omega) (by omega))
  · intro other hother hgone index hcovers
    rw [byteAt_zeroFill_eq (by omega)]
    split
    · rfl
    · rename_i houtside
      refine h.cleared other hother (fun hmem => ?_) index hcovers
      have hsame : other = entry := by
        by_contra hne
        exact hgone ((List.mem_erase_of_ne hne).mpr hmem)
      subst hsame
      have hstop := hstored.stop_of_covers hcovers
      have hfrom := hcovers.1
      omega

-- ---------------------------------------------------------------------------
-- Reads
-- ---------------------------------------------------------------------------

theorem readRaw_eq (h : Erased image entries left after) (hs : Spread image stop start entries)
    (hnew : new.On after) (hmem : entry ∈ entries) (hgone : entry ∉ left) :
    new.readRaw entry =
      .error (.badSignature LocalHeader.signature 0 entry.localOffset.toNat) := by
  obtain ⟨here, stored, hentry, -⟩ := hs.faithful entry hmem
  have hheader := (headerAt_of_locate hentry.locate_eq).1
  refine hnew.readRaw_cleared (h.size_eq ▸ hheader.fixed_le) (u32At_eq_zero fun k hk => ?_)
  have hfixed : k < LocalHeader.fixedSize := Nat.lt_trans hk (by decide)
  exact h.cleared entry hmem hgone _ ⟨Nat.le_add_right _ _, .inl (by omega)⟩

theorem readData_eq [Codec.Coders] (h : Erased image entries left after)
    (hs : Spread image stop start entries)
    (hnew : new.On after) (hmem : entry ∈ entries) (hgone : entry ∉ left)
    (hfile : entry.isDirectory = false) : new.readData entry =
      .error (.badSignature LocalHeader.signature 0 entry.localOffset.toNat) := by
  simp only [Archive.readData, hfile, h.readRaw_eq hs hnew hmem hgone]
  rfl

/-- An entry is read alike just where it is left. -/
theorem readsAlike_iff [Codec.Coders] (h : Erased image entries left after)
    (hs : Spread image stop start entries)
    (hold : old.On image) (hnew : new.On after) (hmem : entry ∈ entries) :
    old.ReadsAlike new entry ↔ entry ∈ left := by
  constructor
  · intro halike
    by_contra hgone
    obtain ⟨here, stored, hentry, -⟩ := hs.faithful entry hmem
    have hread := halike.1.trans (hold.readRaw_ok.mpr ⟨here, hentry.toStoredAt⟩)
    rw [h.readRaw_eq hs hnew hmem hgone] at hread
    cases hread
  · intro hleft
    have hkept : entry.KeptAs image after entry :=
      keptAs_of_agree h.size_eq (fun _ hcovers => h.byteAt_of_left hs hleft hcovers) entry.index
    exact ⟨hkept.readRaw_eq old new hold hnew, hkept.readData_eq old new hold hnew⟩

theorem forall_mem_iff (h : Erased image entries left after) (hs : Spread image stop start entries) :
    (∀ entry ∈ entries, entry ∈ left) ↔ left.length = entries.length := by
  constructor
  · intro hall
    exact Nat.le_antisymm h.sublist.length_le (hs.nodup.subperm hall).length_le
  · intro hlength entry hmem
    rwa [h.sublist.eq_of_length hlength]

end

end Erased

end Entry

-- ---------------------------------------------------------------------------
-- Directories that stay
-- ---------------------------------------------------------------------------

/-- The image ends in the directory, which is read whatever stands in front of it. There its entries
are spread. -/
structure Directory.Seals (directory : Directory) (image : ByteArray) : Prop where
  read_eq : read image = .ok directory
  read_of_agree : ∀ other : ByteArray, other.size = image.size →
    (∀ index, directory.offset ≤ index → byteAt other index = byteAt image index) →
    read other = .ok directory
  spread : Entry.Spread image directory.offset 0 directory.entries.toList

theorem Directory.Seals.read_erased {directory : Directory} {image after : ByteArray}
    {left : List Entry} (h : directory.Seals image)
    (he : Entry.Erased image directory.entries.toList left after) : read after = .ok directory :=
  h.read_of_agree after he.size_eq fun index hbehind => he.kept index fun _ hmem hcovers =>
    absurd (h.spread.lt_stop_of_covers hmem hcovers) (Nat.not_lt_of_le hbehind)

/-- What a writer finished is sealed by a directory of the writer's entries. -/
theorem Writer.Reached.seals [Codec.Coders] {writer : Writer} {bytes : ByteArray}
    (h : Reached writer) (hclose : writer.toBytes = .ok bytes)
    (hreread : Directory.Rereadable bytes writer.draft.entries.size writer.draft.comment.size) :
    ∃ directory : Directory, directory.entries = writer.draft.entries ∧ directory.Seals bytes := by
  obtain ⟨draft, _ | image⟩ := writer
  · cases hclose
  · have hd : draft.Laid image := h.laid image rfl
    have hread := hd.read_finished hclose hreread
    obtain ⟨-, hsize, rfl⟩ := hd.toBytes_ok.mp hclose
    have hspread := hd.finished
    refine ⟨_, rfl, hread, fun other hsame hb => ?_, hspread⟩
    rw [← hread]
    rw [hd.finished_eq] at hsize hreread hsame hb ⊢
    exact Directory.read_of_agree hd.writable hreread.1 hsize hreread.2 hsame hb

-- ---------------------------------------------------------------------------
-- One deletion more
-- ---------------------------------------------------------------------------

section
variable {directory : Directory} {image before comment : ByteArray} {start stop : Nat}
  {entries left : List Entry} {name : String}

theorem Draft.position?_trimmed (name : ByteArray) :
    (trimmed directory left comment).position? name =
      left.findIdx? fun entry => entry.name == name := by
  rw [position?, trimmed, List.findIdx?_toArray, Entry.findIdx?_numberFrom]

/-- The first entry with the name can be erased, for its local header is still there. -/
theorem Draft.findErasable_trimmed (he : Entry.Erased image entries left before)
    (hs : Entry.Spread image stop start entries)
    (hfound : (left.any fun entry => entry.name == name.toUTF8) = true) :
    ∃ position entry here stored, entry ∈ left ∧ entry.StoredAt image here stored ∧
      (left.eraseP fun entry => entry.name == name.toUTF8) = left.erase entry ∧
      (trimmed directory left comment).findErasable before name = .ok (position,
        entry.localOffset.toNat, entry.dataEnd here - entry.localOffset.toNat) := by
  rw [← List.findIdx?_isSome] at hfound
  obtain ⟨position, hposition⟩ := Option.isSome_iff_exists.mp hfound
  obtain ⟨hin, -, -⟩ := List.findIdx?_eq_some_iff_getElem.mp hposition
  have hleft : left[position] ∈ left := List.getElem_mem hin
  obtain ⟨here, stored, hentry, -⟩ := hs.faithful _ (he.sublist.subset hleft)
  refine ⟨position, left[position], here, stored, hleft, hentry.toStoredAt, ?_, ?_⟩
  · rw [List.eraseP_eq_eraseIdx, hposition, (he.sublist.nodup hs.nodup).erase_getElem]
  · have hat : (trimmed directory left comment).entries[position]? =
        some { left[position] with index := position } := by
      rw [trimmed, List.getElem?_toArray, Entry.getElem?_numberFrom,
        List.getElem?_eq_getElem hin, Nat.zero_add]
      rfl
    have hextent : left[position].extent before = .ok (left[position].localOffset.toNat,
        left[position].dataEnd here - left[position].localOffset.toNat) :=
      Entry.extent_of_storedAt (he.storedAt hs hleft hentry.toStoredAt) hentry.flags_eq
    have hnumbered : ({ left[position] with index := position } : Entry).extent before =
        left[position].extent before := rfl
    simp only [findErasable, position?_trimmed, hposition, hat, hnumbered, hextent]

/-- A deletion in place on the way takes one entry more, or fails for want of one. -/
theorem Writer.eraseInPlace_partway (directory : Directory) (comment : ByteArray) (name : String)
    (he : Entry.Erased image entries left before)
    (hs : Entry.Spread image stop start entries) :
    if left.any fun entry => entry.name == name.toUTF8 then
      ∃ after, eraseInPlace ⟨.trimmed directory left comment, some before⟩ name =
          (⟨.trimmed directory (left.eraseP fun entry => entry.name == name.toUTF8) comment,
            some after⟩, .ok ()) ∧
        Entry.Erased image entries (left.eraseP fun entry => entry.name == name.toUTF8) after
    else eraseInPlace ⟨.trimmed directory left comment, some before⟩ name =
      (⟨.trimmed directory left comment, some before⟩, .error (.entryNotFound name)) := by
  split
  · rename_i hfound
    obtain ⟨position, entry, here, stored, hleft, hstored, herase, herasable⟩ :=
      Draft.findErasable_trimmed he hs hfound
    refine ⟨_, (eraseInPlace_trimmed herasable).1, ?_⟩
    rw [herase]
    exact he.erase hs hleft hstored
  · rename_i hmissing
    have hnone : (Draft.trimmed directory left comment).position? name.toUTF8 = none := by
      rw [Draft.position?_trimmed, List.findIdx?_eq_none_iff]
      simpa using hmissing
    simp only [eraseInPlace, Draft.findErasable, hnone]

end

end ClassicZip
