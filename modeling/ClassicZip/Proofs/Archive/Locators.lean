import ClassicZip.Proofs.Archive.Opening
import ClassicZip.Proofs.Writer.Growth

/-!
# Which 64-bit archives are recognised

The locator of a 64-bit archive is looked for only where the end record is. The longest comment
leaves no room for it there, so behind a locator too far from the end the record is taken at its
word, although it asks for the locator.
-/

namespace ClassicZip

open Bytes

namespace EndRecord

section
variable {image : ByteArray} {position : Nat} {record : EndRecord}

theorem extended_iff (hs : record.hasSentinel = true) (hl : LocatorAt image position) :
    Extended image position record ↔
      image.size ≤ position + fixedSize + (maxLength - locatorSize) := by
  have hposition := hl.1
  simp only [Extended, hs, hl, true_and]
  simp only [searchSpan, maxLength, locatorSize] at *
  omega

theorem ofEndRecord_ne_oversize (cause : Oversize) :
    Directory.ofEndRecord image image position record ≠ .error (.oversize cause) := by
  intro h
  rcases Directory.ofEndRecord_eq_error.mp h with ⟨-, hfault⟩ | ⟨headers, rest, -, -, -, hfault⟩
  · cases hfault
  · unfold Entry.headerFault at hfault
    split at hfault <;> cases hfault

theorem Chosen.read_eq_oversize (h : Chosen image position record) :
    Directory.read image = .error (.oversize .endRecord) ↔ Extended image position record := by
  rw [Directory.read_of_chosen h]
  split
  · rename_i hextended
    simp [hextended]
  · rename_i hplain
    exact iff_of_false (ofEndRecord_ne_oversize _) hplain

end

end EndRecord

/-- An archive whose end record asks for the locator of a 64-bit archive, and has it in front, is
recognised as one by both readers just when not too much lies behind the record: the longest comment
less the size of the locator. Otherwise the record is taken at its word. -/
theorem EndRecord.Chosen.oversize_iff {image : ByteArray} {position : Nat} {record : EndRecord}
    (h : Chosen image position record) (hs : record.hasSentinel = true)
    (hl : LocatorAt image position) :
    (Archive.ofBytes image = .error (.oversize .endRecord) ↔
      image.size ≤ position + fixedSize + (maxLength - locatorSize)) ∧
    (Writer.ofBytes image = .error (.oversize .endRecord) ↔
      image.size ≤ position + fixedSize + (maxLength - locatorSize)) ∧
    (position + fixedSize + (maxLength - locatorSize) < image.size →
      Directory.read image = Directory.ofEndRecord image image position record) := by
  have hpos : image.size ≠ 0 := by
    have hfits := h.fits
    simp only [fixedSize] at hfits
    omega
  rw [Archive.ofBytes_eq_error, Writer.ofBytes_eq_error hpos, h.read_eq_oversize,
    extended_iff hs hl]
  refine ⟨Iff.rfl, Iff.rfl, fun hfar => ?_⟩
  rw [Directory.read_of_chosen h, if_neg]
  rw [extended_iff hs hl]
  exact Nat.not_le_of_lt hfar

namespace EndRecord

/-- A record that asks for the locator in every way, in front of so long a comment. -/
def asking (commentSize : Nat) : EndRecord :=
  ofSingleDisk 0xFFFF 0xFFFFFFFF 0xFFFFFFFF (UInt16.ofNat commentSize)

def located (commentSize : Nat) : ByteArray :=
  le32 locatorSignature ++ zeros 16 ++ (asking commentSize).ending (zeros commentSize)

theorem locatorAt_located (commentSize : Nat) : LocatorAt (located commentSize) 20 := by
  refine ⟨Nat.le_refl _, ?_⟩
  rw [located, ByteArray.append_assoc]
  exact u32At_le32_append _ _

theorem size_located (commentSize : Nat) : (located commentSize).size = 42 + commentSize := by
  simp [located, fixedSize, bodySize]
  omega

theorem Chosen.oversize_iff_bare :
    Archive.ofBytes (located 0) = .error (.oversize .endRecord) ∧
      Writer.ofBytes (located 0) = .error (.oversize .endRecord) := by
  have hchosen : Chosen (located 0) 20 (asking 0) :=
    chosen_ending rfl (le32 locatorSignature ++ zeros 16) (unrivalled_zero _)
  obtain ⟨harchive, hwriter, -⟩ := hchosen.oversize_iff (by decide) (locatorAt_located 0)
  rw [size_located] at harchive hwriter
  exact ⟨harchive.mpr (by decide), hwriter.mpr (by decide)⟩

theorem unrivalled_located : Unrivalled (located maxLength) maxLength := by
  have hhead : (located maxLength) = le32 locatorSignature ++ zeros 16 ++ le32 signature ++
      (asking maxLength).encode ++ zeros maxLength := by
    simp only [located, ending, ByteArray.append_assoc]
  obtain ⟨head, hsplit⟩ : ∃ head, head = le32 locatorSignature ++ zeros 16 ++ le32 signature ++
      (asking maxLength).encode := ⟨_, rfl⟩
  have hsize : head.size = 42 := by rw [hsplit]; rfl
  -- The signature begins with 0x50, which occurs neither in the rest of the record nor as a zero.
  have hbytes : ∀ position < 42, 20 < position → byteAt head position ≠ 0x50 := by
    rw [hsplit]
    decide
  rw [← hsplit] at hhead
  intro position _ hbehind
  rw [size_located] at hbehind
  refine at?_of_byteAt_ne ?_
  rw [hhead]
  by_cases hlow : position < 42
  · rw [byteAt_append_left (by omega)]
    exact hbytes position hlow (by simp only [fixedSize, bodySize, maxLength] at hbehind; omega)
  · rw [byteAt_append_right (by omega), byteAt_zeros]
    decide

/-- In front of the longest comment the locator goes unseen. -/
theorem Chosen.oversize_missed_longest :
    ∃ image position record, Chosen image position record ∧ record.hasSentinel = true ∧
      LocatorAt image position ∧
      Archive.ofBytes image = .error (.truncated .directory maxOffset) ∧
      Writer.ofBytes image = .error (.truncated .directory maxOffset) := by
  have hchosen : Chosen (located maxLength) 20 (asking maxLength) := by
    have hsize : (zeros maxLength).size = maxLength := size_zeros maxLength
    have hc : (zeros maxLength).size = (asking maxLength).commentLength.toNat := by
      rw [hsize]
      rfl
    refine chosen_ending hc (le32 locatorSignature ++ zeros 16) ?_
    rw [hsize]
    exact unrivalled_located
  have hlocator := locatorAt_located maxLength
  have hread : Directory.read (located maxLength) = .error (.truncated .directory maxOffset) := by
    rw [Directory.read_of_chosen hchosen, if_neg]
    · exact Directory.ofEndRecord_eq_error.mpr (.inl ⟨by decide, rfl⟩)
    · rw [extended_iff (by decide) hlocator, size_located]
      decide
  refine ⟨_, _, _, hchosen, by decide, hlocator, Archive.ofBytes_eq_error.mpr hread, ?_⟩
  exact (Writer.ofBytes_eq_error (by rw [size_located]; decide)).mpr hread

end EndRecord

end ClassicZip
