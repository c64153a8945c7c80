import ClassicZip.Proofs.Extra.Blocks
import ClassicZip.Proofs.Writer.Reached

/-!
# To copy an entry is to add it again

What an addition put into an image tells how it was added: the alignment stands in the extra field,
which holds nothing else. So a rebuild does with the entry just what the addition would do.
-/

namespace ClassicZip

open Bytes

namespace Alignment

/-- Without an alignment the extra field is empty. Otherwise it is one alignment block, and the data
starts at a multiple of the alignment. -/
inductive Honoured (alignment : UInt16) (here : LocalEntry) : Prop
  | unaligned : alignment = 0 → here.extra = ByteArray.empty → Honoured alignment here
  | aligned {padding : Nat} : isPowerOfTwo alignment = true →
      alignment.toNat ∣ here.dataOffset → 2 + padding ≤ maxLength →
      here.extra = block alignment padding → Honoured alignment here

section
variable {alignment : UInt16} {here : LocalEntry}

theorem Honoured.find?_eq (h : Honoured alignment here) :
    find? here.extra = if alignment = 0 then none else some alignment := by
  cases h with
  | unaligned hzero hextra =>
    rw [if_pos hzero, hextra, ← ExtraBlock.encodeAll_nil]
    exact find?_encodeAll (by simp) (by simp)
  | aligned hpower _ hpadding hextra =>
    rw [if_neg (ne_zero_of_isPowerOfTwo hpower), hextra,
      ← ByteArray.empty_append (b := block _ _), ← ExtraBlock.encodeAll_nil]
    exact find?_append_block (by simp) (by simp) hpadding hpower

theorem Honoured.strip_eq (h : Honoured alignment here) : strip here.extra = ByteArray.empty := by
  cases h with
  | unaligned _ hextra =>
    rw [hextra, ← ExtraBlock.encodeAll_nil]
    exact strip_encodeAll (by simp) (by simp)
  | aligned _ _ hpadding hextra =>
    rw [hextra, ← ByteArray.empty_append (b := block _ _), ← ExtraBlock.encodeAll_nil]
    exact strip_append_block (by simp) (by simp) hpadding

theorem Honoured.getD_eq (h : Honoured alignment here) :
    (find? here.extra).getD 0 = alignment := by
  rw [h.find?_eq]
  split
  · rename_i hzero
    rw [hzero]
    rfl
  · rfl

end

end Alignment

-- ---------------------------------------------------------------------------
-- Pushes
-- ---------------------------------------------------------------------------

theorem Draft.paddedExtra_honoured {draft : Draft} {entry : Entry} {alignment : UInt16}
    (halignment : alignment = 0 ∨ Alignment.isPowerOfTwo alignment = true)
    (hfit : (draft.paddedExtra entry ByteArray.empty alignment).size ≤ maxLength) :
    Alignment.Honoured alignment ⟨draft.paddedExtra entry ByteArray.empty alignment,
      draft.cursor + LocalHeader.fixedSize + (entry.name.size +
        (draft.paddedExtra entry ByteArray.empty alignment).size)⟩ := by
  by_cases hzero : alignment = 0
  · exact .unaligned hzero (if_pos hzero)
  · have hpower := halignment.resolve_left hzero
    have hpadded : draft.paddedExtra entry ByteArray.empty alignment =
        Alignment.block alignment (Alignment.padding draft.cursor entry.name.size alignment) := by
      rw [paddedExtra, if_neg hzero, ByteArray.size_empty, Nat.add_zero, ByteArray.empty_append]
    rw [hpadded, Alignment.size_block, Alignment.blockHead] at hfit
    refine .aligned hpower ?_ (by omega) hpadded
    have hpos : 0 < alignment.toNat :=
      Nat.pos_of_ne_zero fun h => hzero (UInt16.toNat_inj.mp h)
    have hdvd := Alignment.alignment_dvd_padded draft.cursor entry.name.size hpos
    rw [hpadded, Alignment.size_block]
    simpa [Alignment.unpadded, Nat.add_assoc] using hdvd

namespace Writer

theorem push_placed (writer : Writer) (entry : Entry) (index : Nat) (offset : UInt32)
    (localExtra : ByteArray) (alignment : UInt16) (stored : ByteArray) :
    writer.push { entry with index := index, localOffset := offset } localExtra alignment stored =
      writer.push entry localExtra alignment stored := by
  obtain ⟨draft, _ | image⟩ := writer <;> rfl

theorem withoutDescriptor_of_flags {entry : Entry}
    (h : entry.flags &&& Entry.descriptorFlag = 0) : entry.withoutDescriptor = entry := by
  have hflags : entry.flags &&& ~~~Entry.descriptorFlag = entry.flags := by
    have hclear := congrArg UInt16.toBitVec h
    apply UInt16.toBitVec_inj.mp
    simp only [UInt16.toBitVec_and, UInt16.toBitVec_not] at hclear ⊢
    calc entry.flags.toBitVec &&& ~~~Entry.descriptorFlag.toBitVec
        = entry.flags.toBitVec &&& Entry.descriptorFlag.toBitVec |||
            entry.flags.toBitVec &&& ~~~Entry.descriptorFlag.toBitVec := by rw [hclear]; simp
      _ = entry.flags.toBitVec := by
          rw [← BitVec.and_or_distrib_left, BitVec.or_not_self, BitVec.and_allOnes]
  rw [Entry.withoutDescriptor, hflags]

/-- The writer with the comment set, if it has one or not. -/
def commented (writer : Writer) (comment : ByteArray) : Writer :=
  { writer with draft := { writer.draft with comment := comment } }

theorem push_commented (writer : Writer) (comment : ByteArray) (entry : Entry)
    (localExtra : ByteArray) (alignment : UInt16) (stored : ByteArray) :
    (writer.commented comment).push entry localExtra alignment stored =
      ((writer.push entry localExtra alignment stored).1.commented comment,
        (writer.push entry localExtra alignment stored).2) := by
  obtain ⟨draft, _ | image⟩ := writer
  · rfl
  · have hplace : ({ draft with comment := comment } : Draft).place entry localExtra alignment
        stored.size = draft.place entry localExtra alignment stored.size := rfl
    simp only [push, commented, hplace]
    split <;> rfl

end Writer

-- ---------------------------------------------------------------------------
-- Additions in an image
-- ---------------------------------------------------------------------------

variable [Codec.Coders]

namespace Addition

/-- The image holds what was written for the addition, where the entry says, and aligned as it
asks. -/
structure HeldAt (image : ByteArray) (addition : Addition) (entry : Entry) (here : LocalEntry)
    (stored : ByteArray) : Prop extends entry.StoredAt image here stored where
  kept : addition.KeptIn ⟨entry, here.extra, stored⟩
  honoured : Alignment.Honoured addition.alignment here

def Held (image : ByteArray) (addition : Addition) (entry : Entry) : Prop :=
  ∃ here stored, addition.HeldAt image entry here stored

section
variable {addition : Addition} {made : Entry} {stored : ByteArray}

theorem alignment_of_make (h : addition.make = .ok (made, stored)) :
    addition.alignment = 0 ∨ Alignment.isPowerOfTwo addition.alignment = true := by
  cases addition with
  | file name data options =>
    simp only [make, Entry.ofFile] at h
    split at h
    · cases h
    · rename_i hrefused
      by_cases hzero : options.alignment = 0
      · exact .inl hzero
      · exact .inr (Decidable.not_not.mp fun hodd => hrefused ⟨hzero, hodd⟩)
  | directory name options => exact .inl rfl

theorem perform_of_make (writer : Writer) (h : addition.make = .ok (made, stored)) :
    writer.perform (.add addition) =
      writer.push made ByteArray.empty addition.alignment stored := by
  obtain ⟨draft, _ | image⟩ := writer
  · cases addition <;> rfl
  · cases addition with
    | file name data options =>
      have hmake : Entry.ofFile name data options = .ok (made, stored) := h
      simp only [Writer.perform, Writer.addFile, hmake]
      rfl
    | directory name options =>
      obtain ⟨rfl, rfl⟩ := Prod.mk.inj (Except.ok.inj h)
      rfl

theorem perform_of_make_error (draft : Draft) (image : ByteArray) {fault : Fault}
    (h : addition.make = .error fault) :
    Writer.perform ⟨draft, some image⟩ (.add addition) = (⟨draft, some image⟩, .error fault) := by
  cases addition with
  | file name data options =>
    have hfile : Entry.ofFile name data options = .error fault := h
    simp only [Writer.perform, Writer.addFile, hfile]
    rfl
  | directory name options => cases h

end

section
variable {image other : ByteArray} {addition : Addition} {entry : Entry}

theorem Held.name_eq (h : addition.Held image entry) : entry.name = addition.entryName := by
  obtain ⟨here, stored, hheld⟩ := h
  obtain ⟨made, hmake, hentry⟩ := hheld.kept
  rw [← name_of_make hmake, show entry = _ from hentry]

theorem Held.flags_eq (h : addition.Held image entry) :
    entry.flags &&& Entry.descriptorFlag = 0 := by
  obtain ⟨here, stored, hheld⟩ := h
  exact hheld.kept.flags_eq

theorem Held.makes (h : addition.Held image entry) : addition.Makes entry := by
  obtain ⟨here, stored, hheld⟩ := h
  exact hheld.kept.makes

theorem Held.numbered (h : addition.Held image entry) (index : Nat) :
    addition.Held image { entry with index := index } := by
  obtain ⟨here, stored, hheld⟩ := h
  obtain ⟨made, hmake, hentry⟩ := hheld.kept
  have hsame : { entry with index := index } =
      { made with index := index, localOffset := entry.localOffset } := by
    rw [show entry = _ from hentry]
  exact ⟨here, stored, ⟨⟨hheld.signature_eq, hheld.dataOffset_eq, hheld.dataEnd_le,
    hheld.extra_eq, hheld.stored_eq⟩, ⟨made, hmake, hsame⟩, hheld.honoured⟩⟩

theorem Held.of_agree (h : addition.Held image entry) (hsize : image.size ≤ other.size)
    (hb : ∀ here stored, entry.StoredAt image here stored →
      ∀ index, entry.localOffset.toNat ≤ index → index < entry.dataEnd here →
        byteAt other index = byteAt image index) : addition.Held other entry := by
  obtain ⟨here, stored, hheld⟩ := h
  exact ⟨here, stored, hheld.toStoredAt.of_agree hsize (hb here stored hheld.toStoredAt),
    hheld.kept, hheld.honoured⟩

end

end Addition

namespace Writer

theorem perform_add_held {draft : Draft} {image : ByteArray} {addition : Addition}
    {writer : Writer} (hf : draft.Fits image)
    (h : perform ⟨draft, some image⟩ (.add addition) = (writer, .ok ())) :
    ∃ parcel, Grown draft image [parcel] writer ∧ writer.draft.comment = draft.comment ∧
      addition.Held (image ++ parcel.bytes) parcel.entry := by
  obtain ⟨made, stored, hmake, hpush⟩ := perform_add h
  obtain ⟨hgrown, hcomment⟩ := push_ok hf (Addition.listable_of_make hmake)
    (Addition.storedSize_of_make hmake) hpush
  have hparcel := hgrown.packed.1
  have hstored := hparcel.storedAt ByteArray.empty
  rw [ByteArray.append_empty] at hstored
  have hhonoured := Draft.paddedExtra_honoured (Addition.alignment_of_make hmake)
    hparcel.extra_le
  rw [hf.cursor_eq] at hhonoured
  exact ⟨_, hgrown, hcomment, _, _, hstored, ⟨made, hmake, rfl⟩, hhonoured⟩

-- ---------------------------------------------------------------------------
-- Copies
-- ---------------------------------------------------------------------------

/-- To copy what additions left is to make these additions again, and fails just where that does. -/
theorem copyEntries_eq_run {source : ByteArray} {additions : List Addition} {entries : List Entry}
    (h : List.Forall₂ (Addition.Held source) additions entries) (writer : Writer) :
    copyEntries source entries writer = writer.run (additions.map Call.add) := by
  induction h generalizing writer with
  | nil => rfl
  | @cons addition entry additions entries hheld _ ih =>
    have hplain := withoutDescriptor_of_flags hheld.flags_eq
    obtain ⟨here, stored, hheld⟩ := hheld
    obtain ⟨made, hmake, hentry⟩ := hheld.kept
    have hadd : writer.push entry.withoutDescriptor (Alignment.strip here.extra)
        ((Alignment.find? here.extra).getD 0) stored = writer.perform (.add addition) := by
      rw [Addition.perform_of_make writer hmake, hplain, hheld.honoured.strip_eq,
        hheld.honoured.getD_eq,
        ← push_placed writer made entry.index entry.localOffset]
      exact congrArg (writer.push · _ _ _) hentry
    simp only [copyEntries, Entry.readStored_ok.mpr hheld.toStoredAt, hadd, List.map_cons, run]
    generalize writer.perform (.add addition) = performed
    obtain ⟨next, fault | _⟩ := performed
    · rfl
    · exact ih next

-- ---------------------------------------------------------------------------
-- The comment stands apart
-- ---------------------------------------------------------------------------

theorem perform_commented (writer : Writer) (comment : ByteArray) (addition : Addition) :
    (writer.commented comment).perform (.add addition) =
      ((writer.perform (.add addition)).1.commented comment,
        (writer.perform (.add addition)).2) := by
  cases hmake : addition.make with
  | ok found =>
    rw [Addition.perform_of_make _ hmake, Addition.perform_of_make _ hmake, push_commented]
  | error fault =>
    obtain ⟨draft, _ | image⟩ := writer
    · cases addition <;> rfl
    · rw [commented, Addition.perform_of_make_error _ _ hmake,
        Addition.perform_of_make_error _ _ hmake]
      rfl

theorem run_commented (writer : Writer) (comment : ByteArray) (additions : List Addition) :
    (writer.commented comment).run (additions.map Call.add) =
      (writer.run (additions.map Call.add)).map (·.commented comment) := by
  induction additions generalizing writer with
  | nil => rfl
  | cons addition rest ih =>
    simp only [List.map_cons, run, perform_commented]
    generalize writer.perform (.add addition) = performed
    obtain ⟨next, fault | _⟩ := performed
    · rfl
    · exact ih next

theorem run_append (writer : Writer) (front back : List Call) :
    writer.run (front ++ back) = writer.run front >>= fun next => next.run back := by
  induction front generalizing writer with
  | nil => rfl
  | cons call rest ih =>
    simp only [List.cons_append, run]
    generalize writer.perform call = performed
    obtain ⟨next, fault | _⟩ := performed
    · rfl
    · exact ih next

end Writer

end ClassicZip
