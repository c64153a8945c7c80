import ClassicZip.Deletion
import ClassicZip.Proofs.Bytes.Overwriting
import ClassicZip.Proofs.Directory.Reading
import ClassicZip.Proofs.LocalEntry.Stored

/-!
# What a deletion in place changes

`eraseInPlace_ok`: the first entry with the name is gone, the others are numbered again, and zeros
lie over what the entry took up. The image keeps its length and every byte outside of that.
-/

namespace ClassicZip

open Bytes

namespace Entry

section
variable {image : ByteArray} {entry : Entry}

theorem descriptorLength_ok {offset length : Nat}
    (h : descriptorLength image offset = .ok length) : offset + length ≤ image.size := by
  unfold descriptorLength at h
  extract_lets signed size at h
  split at h
  · cases h
  · rename_i hfit
    obtain rfl := Except.ok.inj h
    exact Nat.le_of_not_lt hfit

/-- Behind its data, which ends at `stop`, the entry has a descriptor of `length` bytes, or none
where its flags announce none. -/
def HasDescriptor (image : ByteArray) (entry : Entry) (stop length : Nat) : Prop :=
  if entry.flags &&& descriptorFlag = 0 then length = 0
  else descriptorLength image stop = .ok length

theorem extent_ok {start count : Nat} (h : entry.extent image = .ok (start, count)) :
    ∃ here stored behind, entry.StoredAt image here stored ∧ start = entry.localOffset.toNat ∧
      start + count = entry.dataEnd here + behind ∧ start + count ≤ image.size ∧
      entry.HasDescriptor image (entry.dataEnd here) behind := by
  simp only [extent, bind_eq_ok, guard_eq_ok] at h
  obtain ⟨here, hlocate, hend, h⟩ := h
  have hstored := locate_ok.mp hlocate
  have hdata : entry.StoredAt image here (slice image here.dataOffset entry.storedSize.toNat) :=
    ⟨hstored.1, hstored.2.1, Nat.le_of_not_lt hend, hstored.2.2.2, rfl⟩
  have hstart : entry.localOffset.toNat ≤ entry.dataEnd here := by
    rw [dataEnd, hdata.dataOffset_eq]
    omega
  split at h
  · rename_i hflag
    obtain ⟨rfl, rfl⟩ := Prod.mk.inj (pure_eq_ok.mp h)
    exact ⟨here, _, 0, hdata, rfl, by omega, by omega, by rw [HasDescriptor, if_pos hflag]⟩
  · rename_i hflag
    obtain ⟨behind, hbehind, h⟩ := bind_eq_ok.mp h
    obtain ⟨rfl, rfl⟩ := Prod.mk.inj (pure_eq_ok.mp h)
    have hfit := descriptorLength_ok hbehind
    exact ⟨here, _, behind, hdata, rfl, by omega, by omega, by rwa [HasDescriptor, if_neg hflag]⟩

theorem extent_of_storedAt {here : LocalEntry} {stored : ByteArray}
    (h : entry.StoredAt image here stored) (hflags : entry.flags &&& descriptorFlag = 0) :
    entry.extent image =
      .ok (entry.localOffset.toNat, entry.dataEnd here - entry.localOffset.toNat) := by
  simp only [extent, h.locate_eq, ok_bind, if_neg (Nat.not_lt_of_le h.dataEnd_le), if_pos hflags]
  rfl

end

-- ---------------------------------------------------------------------------
-- Numbering again
-- ---------------------------------------------------------------------------

def numberFrom (first : Nat) : List Entry → List Entry
  | [] => []
  | entry :: rest => { entry with index := first } :: numberFrom (first + 1) rest

theorem mapIdx_eq_numberFrom (first : Nat) (entries : List Entry) :
    (entries.mapIdx fun index entry => { entry with index := first + index }) =
      numberFrom first entries := by
  induction entries generalizing first with
  | nil => rfl
  | cons entry rest ih =>
    rw [List.mapIdx_cons, numberFrom, ← ih (first + 1)]
    simp only [Nat.add_zero, Nat.add_assoc, Nat.add_comm 1]

theorem length_numberFrom (first : Nat) (entries : List Entry) :
    (numberFrom first entries).length = entries.length := by
  induction entries generalizing first with
  | nil => rfl
  | cons entry rest ih => exact congrArg Nat.succ (ih (first + 1))

theorem numberFrom_numberFrom (first second : Nat) (entries : List Entry) :
    numberFrom first (numberFrom second entries) = numberFrom first entries := by
  induction entries generalizing first second with
  | nil => rfl
  | cons entry rest ih => rw [numberFrom, numberFrom, ih, numberFrom]

theorem NumberedFrom.numberFrom_eq {first : Nat} {entries : List Entry}
    (h : NumberedFrom first entries) : numberFrom first entries = entries := by
  induction entries generalizing first with
  | nil => rfl
  | cons entry rest ih => rw [numberFrom, ih h.2, ← h.1]

theorem listing_numberFrom (first : Nat) (entries : List Entry) :
    listing (numberFrom first entries) = listing entries := by
  induction entries generalizing first with
  | nil => rfl
  | cons entry rest ih => exact congrArg (entry.directoryBytes ++ ·) (ih (first + 1))

theorem numberFrom_eraseP (name : ByteArray) (first second : Nat) (entries : List Entry) :
    numberFrom first ((numberFrom second entries).eraseP fun entry => entry.name == name) =
      numberFrom first (entries.eraseP fun entry => entry.name == name) := by
  induction entries generalizing first second with
  | nil => rfl
  | cons entry rest ih =>
    simp only [numberFrom, List.eraseP_cons]
    cases entry.name == name with
    | true => exact numberFrom_numberFrom first (second + 1) rest
    | false => exact congrArg ({ entry with index := first } :: ·) (ih (first + 1) (second + 1))

theorem numberedFrom_numberFrom (first : Nat) (entries : List Entry) :
    NumberedFrom first (numberFrom first entries) := by
  induction entries generalizing first with
  | nil => trivial
  | cons entry rest ih => exact ⟨rfl, ih (first + 1)⟩

theorem findIdx?_numberFrom (name : ByteArray) (first : Nat) (entries : List Entry) :
    ((numberFrom first entries).findIdx? fun entry => entry.name == name) =
      entries.findIdx? fun entry => entry.name == name := by
  induction entries generalizing first with
  | nil => rfl
  | cons entry rest ih => simp only [numberFrom, List.findIdx?_cons, ih]

theorem getElem?_numberFrom (first : Nat) (entries : List Entry) (position : Nat) :
    (numberFrom first entries)[position]? =
      entries[position]?.map fun entry => { entry with index := first + position } := by
  rw [← mapIdx_eq_numberFrom, List.getElem?_mapIdx]

theorem exists_of_mem_numberFrom {first : Nat} {entries : List Entry} {entry : Entry}
    (h : entry ∈ numberFrom first entries) :
    ∃ old ∈ entries, entry = { old with index := entry.index } := by
  induction entries generalizing first with
  | nil => cases h
  | cons head rest ih =>
    rcases List.mem_cons.mp h with rfl | h
    · exact ⟨head, List.mem_cons_self, rfl⟩
    · obtain ⟨old, hold, heq⟩ := ih h
      exact ⟨old, List.mem_cons_of_mem _ hold, heq⟩

end Entry

namespace Draft

theorem toList_remove (draft : Draft) (position : Nat) :
    (draft.remove position).entries.toList =
      Entry.numberFrom 0 (draft.entries.toList.eraseIdx position) := by
  rw [← Entry.mapIdx_eq_numberFrom, remove, Array.toList_mapIdx,
    Array.toList_eraseIdxIfInBounds]
  simp only [Nat.zero_add]

theorem eraseIdx_position {draft : Draft} {name : ByteArray} {position : Nat}
    (h : draft.position? name = some position) :
    draft.entries.toList.eraseIdx position =
      draft.entries.toList.eraseP fun entry => entry.name == name := by
  have hlist : draft.entries.toList.findIdx? (fun entry => entry.name == name) = some position := by
    rw [← List.findIdx?_toArray]
    exact h
  rw [List.eraseP_eq_eraseIdx, hlist]

theorem writable_remove {draft : Draft}
    (h : Directory.Writable draft.entries.toList draft.comment) (position : Nat) :
    Directory.Writable (draft.remove position).entries.toList (draft.remove position).comment where
  listable := by
    intro entry he
    rw [toList_remove] at he
    obtain ⟨old, hold, heq⟩ := Entry.exists_of_mem_numberFrom he
    have hl := h.listable old (List.mem_of_mem_eraseIdx hold)
    rw [heq]
    exact ⟨hl.name_le, hl.extra_le, hl.comment_le, hl.method_eq⟩
  numbered := by
    rw [toList_remove]
    exact Entry.numberedFrom_numberFrom 0 _
  comment_le := h.comment_le

theorem findErasable_ok {draft : Draft} {image : ByteArray} {name : String}
    {position start count : Nat} (h : draft.findErasable image name = .ok (position, start, count)) :
    ∃ entry, draft.position? name.toUTF8 = some position ∧
      draft.entries[position]? = some entry ∧ entry.extent image = .ok (start, count) := by
  simp only [findErasable] at h
  split at h
  · cases h
  · rename_i hposition
    split at h
    · cases h
    · rename_i entry hentry
      split at h
      · cases h
      · rename_i hextent
        obtain ⟨rfl, rfl⟩ := Prod.mk.inj (Except.ok.inj h)
        exact ⟨entry, hposition, hentry, hextent⟩

end Draft

namespace Writer

theorem eraseInPlace_ok {draft : Draft} {image : ByteArray} {name : String} {writer : Writer}
    (h : eraseInPlace ⟨draft, some image⟩ name = (writer, .ok ())) :
    ∃ position entry start count, draft.position? name.toUTF8 = some position ∧
      draft.entries[position]? = some entry ∧ entry.extent image = .ok (start, count) ∧
      writer = ⟨draft.remove position, some (zeroFill image start count)⟩ := by
  simp only [eraseInPlace] at h
  split at h
  · cases h
  · rename_i position start count hfound
    obtain ⟨rfl, -⟩ := Prod.mk.inj h
    obtain ⟨entry, hposition, hentry, hextent⟩ := Draft.findErasable_ok hfound
    exact ⟨position, entry, start, count, hposition, hentry, hextent, rfl⟩

theorem eraseInPlace_eq {draft : Draft} {image : ByteArray} {name : String}
    {position start count : Nat} (h : draft.findErasable image name = .ok (position, start, count))
    (hstart : start ≤ image.size) :
    eraseInPlace ⟨draft, some image⟩ name = (⟨draft.remove position,
      some (image.extract 0 start ++ zeros count ++ image.extract (start + count) image.size)⟩,
        .ok ()) := by
  simp only [eraseInPlace, h, zeroFill_eq hstart]

end Writer

end ClassicZip
