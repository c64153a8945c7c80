import ClassicZip.Proofs.Directory.Reading

/-!
# The record that is chosen

A search reads the end of an image only. It comes to the last record that fits with its comment, and
takes the archive for a 64-bit one only where the locator lies in the part that was searched too.
-/

namespace ClassicZip

open Bytes

namespace EndRecord

/-- The last record of the image that fits together with its comment, where the longest comment can
be behind it. -/
structure Chosen (image : ByteArray) (position : Nat) (record : EndRecord) : Prop where
  at_eq : at? image position = some record
  near : image.size ≤ position + searchSpan
  last : ∀ later, position < later → at? image later = none

def LocatorAt (image : ByteArray) (position : Nat) : Prop :=
  locatorSize ≤ position ∧ u32At image (position - locatorSize) = locatorSignature

instance (image : ByteArray) (position : Nat) : Decidable (LocatorAt image position) := by
  unfold LocatorAt
  infer_instance

/-- The archive is taken for a 64-bit one: some field asks for the locator, and that is in reach of
the search. -/
def Extended (image : ByteArray) (position : Nat) (record : EndRecord) : Prop :=
  record.hasSentinel = true ∧ LocatorAt image position ∧
    image.size ≤ position - locatorSize + searchSpan

instance (image : ByteArray) (position : Nat) (record : EndRecord) :
    Decidable (Extended image position record) := by
  unfold Extended
  infer_instance

section
variable {image : ByteArray} {position : Nat} {record : EndRecord}

theorem at?_of_size_le (h : image.size ≤ position) : at? image position = none := by
  have hpos : 0 < fixedSize := by decide
  rw [at?, if_neg]
  rintro ⟨hfit, -⟩
  omega

theorem Chosen.fits (h : Chosen image position record) :
    position + fixedSize + record.commentLength.toNat ≤ image.size :=
  at?_fits h.at_eq

theorem chosen_ending {comment : ByteArray} (hc : comment.size = record.commentLength.toNat)
    (front : ByteArray)
    (hu : Unrivalled (front ++ record.ending comment) comment.size) :
    Chosen (front ++ record.ending comment) front.size record where
  at_eq := at?_ending hc front
  near := by
    have hle := toNat_le_maxLength record.commentLength
    rw [ByteArray.size_append, size_ending, searchSpan]
    omega
  last := fun later hlater => by
    by_cases hinside : later < (front ++ record.ending comment).size
    · exact hu later hinside (by rw [ByteArray.size_append, size_ending]; omega)
    · exact at?_of_size_le (Nat.le_of_not_lt hinside)

theorem unrivalled_zero (image : ByteArray) : Unrivalled image 0 := by
  intro position hinside hbehind
  rw [at?, if_neg]
  rintro ⟨hfit, -⟩
  omega

end

end EndRecord

namespace EndRecord

section
variable {before tail : ByteArray} {position : Nat} {record : EndRecord}

theorem find?_eq_some_iff (hbefore : before.size = (before ++ tail).size - searchSpan) :
    find? tail = some (position, record) ↔
      Chosen (before ++ tail) (before.size + position) record := by
  have hpos : 0 < fixedSize := by decide
  rw [find?, findBelow?_eq_some_iff]
  constructor
  · rintro ⟨hinside, hat, hlast⟩
    -- Any later position lies in the tail as well, or behind the end of the image.
    refine ⟨(at?_append_right before tail position).trans hat, by omega, fun later hlater => ?_⟩
    obtain ⟨inner, rfl⟩ : ∃ inner, later = before.size + inner :=
      Nat.exists_eq_add_of_le (by omega)
    rw [at?_append_right]
    by_cases hinner : inner < tail.size
    · exact hlast inner (by omega) hinner
    · exact at?_of_size_le (by omega)
  · rintro ⟨hat, hnear, hlast⟩
    rw [at?_append_right] at hat
    have hfits := at?_fits hat
    refine ⟨by omega, hat, fun later hlater _ => ?_⟩
    rw [← at?_append_right before]
    exact hlast _ (by omega)

theorem Chosen.exists_eq (hbefore : before.size = (before ++ tail).size - searchSpan)
    (h : Chosen (before ++ tail) position record) :
    ∃ inner, position = before.size + inner := by
  have hnear := h.near
  exact Nat.exists_eq_add_of_le (by omega)

theorem hasLocatorBefore_iff (hbefore : before.size = (before ++ tail).size - searchSpan)
    (position : Nat) :
    hasLocatorBefore tail position = true ↔
      LocatorAt (before ++ tail) (before.size + position) ∧
        (before ++ tail).size ≤ before.size + position - locatorSize + searchSpan := by
  rw [hasLocatorBefore, Bool.and_eq_true, decide_eq_true_eq, beq_iff_eq, LocatorAt]
  constructor
  · rintro ⟨hle, hsig⟩
    refine ⟨⟨by omega, ?_⟩, by omega⟩
    rw [u32At_append_right (by omega), ← hsig]
    congr 1
    omega
  · rintro ⟨⟨hle, hsig⟩, hreach⟩
    have hfit : locatorSize ≤ position := by omega
    refine ⟨hfit, ?_⟩
    rw [u32At_append_right (by omega)] at hsig
    rw [← hsig]
    congr 1
    omega

end

end EndRecord

namespace Directory

theorem exists_tailOf (image : ByteArray) :
    ∃ before tail, image = before ++ tail ∧ tailOf image = tail ∧
      before.size = image.size - EndRecord.searchSpan := by
  refine ⟨image.extract 0 (image.size - EndRecord.searchSpan), tailOf image, ?_, rfl, ?_⟩
  · rw [tailOf_eq, ByteArray.extract_append_extract, Nat.zero_min,
      Nat.max_eq_right (Nat.sub_le _ _), ByteArray.extract_zero_size]
  · rw [ByteArray.size_extract]
    omega

theorem ofEndRecord_append (before tail : ByteArray) (position : Nat) (record : EndRecord) :
    ofEndRecord (before ++ tail) tail position record =
      ofEndRecord (before ++ tail) (before ++ tail) (before.size + position) record := by
  have hplace : (before ++ tail).size - tail.size + position = before.size + position := by
    rw [ByteArray.size_append]
    omega
  have hcomment : slice (before ++ tail) (before.size + position + EndRecord.fixedSize)
      record.commentLength.toNat = slice tail (position + EndRecord.fixedSize)
        record.commentLength.toNat := by
    rw [Nat.add_assoc, slice_append_right (Nat.le_add_right _ _), Nat.add_sub_cancel_left]
  simp only [ofEndRecord, hplace, hcomment, Nat.sub_self, Nat.zero_add]

section
variable {image : ByteArray} {position : Nat} {record : EndRecord}

theorem read_of_chosen (h : EndRecord.Chosen image position record) :
    read image = if EndRecord.Extended image position record then .error (.oversize .endRecord)
      else ofEndRecord image image position record := by
  obtain ⟨before, tail, rfl, htail, hbefore⟩ := exists_tailOf image
  obtain ⟨inner, rfl⟩ := h.exists_eq hbefore
  have hfind := (EndRecord.find?_eq_some_iff hbefore).mpr h
  have hlocator := EndRecord.hasLocatorBefore_iff hbefore inner
  rw [← ofEndRecord_append before tail inner]
  simp only [read, htail, hfind, ofSearch, EndRecord.Extended, Bool.and_eq_true, hlocator]

theorem read_of_none (h : ∀ position record, ¬EndRecord.Chosen image position record) :
    read image = .error .endRecordNotFound := by
  obtain ⟨before, tail, rfl, htail, hbefore⟩ := exists_tailOf image
  have hfind : EndRecord.find? tail = none := by
    refine Option.eq_none_iff_forall_not_mem.mpr fun found hfound => ?_
    exact h _ found.2 ((EndRecord.find?_eq_some_iff hbefore).mp hfound)
  rw [read, htail, hfind, ofSearch]

end

end Directory

end ClassicZip
