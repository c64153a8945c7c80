import ClassicZip.Proofs.Bytes.Concatenation

/-!
# Writing in place

Overwriting and zero filling put their bytes over a range and leave everything around it. At the
end of an image overwriting appends.
-/

namespace ClassicZip.Bytes

section
variable {bytes data : ByteArray} {offset count : Nat}

theorem extract_of_size_le {start stop : Nat} (h : bytes.size ≤ start) :
    bytes.extract start stop = ByteArray.empty := by
  rw [← ByteArray.size_eq_zero_iff]
  simp
  omega

theorem extract_append_of_le {first second : ByteArray} {start : Nat} (h : first.size ≤ start) :
    (first ++ second).extract start (first ++ second).size =
      second.extract (start - first.size) second.size := by
  rw [ByteArray.extract_append, extract_of_size_le h, ByteArray.empty_append]
  congr 1
  simp

theorem extract_extract_size {start inner : Nat} :
    (bytes.extract start bytes.size).extract inner (bytes.extract start bytes.size).size =
      bytes.extract (start + inner) bytes.size := by
  rw [ByteArray.extract_extract]
  rcases Nat.lt_or_ge start bytes.size with hlt | hge
  · congr 1
    simp
    omega
  · rw [extract_of_size_le (by omega), extract_of_size_le (by omega)]

theorem overwrite_eq (h : offset ≤ bytes.size) :
    overwrite bytes offset data =
      bytes.extract 0 offset ++ data ++ bytes.extract (offset + data.size) bytes.size := by
  unfold overwrite
  split
  · rename_i hd
    obtain rfl := ByteArray.size_eq_zero_iff.mp hd
    simp [h]
  · split
    · rename_i hs
      subst hs
      rw [ByteArray.extract_zero_size, extract_of_size_le (Nat.le_add_right _ _),
        ByteArray.append_empty]
    · rw [if_neg (by omega), ByteArray.copySlice_eq_append]
      simp

theorem overwrite_size (bytes data : ByteArray) : overwrite bytes bytes.size data = bytes ++ data := by
  rw [overwrite_eq (Nat.le_refl _), ByteArray.extract_zero_size,
    extract_of_size_le (Nat.le_add_right _ _), ByteArray.append_empty]

theorem overwrite_append (front rest data : ByteArray) :
    overwrite (front ++ rest) front.size data =
      front ++ data ++ rest.extract data.size rest.size := by
  rw [overwrite_eq (by simp), ByteArray.extract_append_eq_left rfl,
    extract_append_of_le (Nat.le_add_right _ _), Nat.add_sub_cancel_left]

@[simp] theorem resize_size (bytes : ByteArray) : resize bytes bytes.size = bytes := by
  simp [resize]

@[simp] theorem zeros_zero : zeros 0 = ByteArray.empty := rfl

theorem zeros_append (count more : Nat) : zeros count ++ zeros more = zeros (count + more) := by
  simp [zeros, ByteArray.ext_iff]

theorem slice_zeros (h : count ≤ offset) : slice (zeros offset) 0 count = zeros count := by
  apply ext_byteAt
  · rw [size_slice (by simpa using h), size_zeros]
  · intro k hk
    rw [size_slice (by simpa using h)] at hk
    rw [byteAt_slice hk, byteAt_zeros, byteAt_zeros]

theorem zeroFill_eq (h : offset ≤ bytes.size) :
    zeroFill bytes offset count =
      bytes.extract 0 offset ++ zeros count ++ bytes.extract (offset + count) bytes.size := by
  fun_induction zeroFill bytes offset count with
  | case1 bytes offset =>
    simp [h]
  | case2 bytes offset count _ hle =>
    rw [zeroBlock, size_zeros] at hle
    rw [zeroBlock, slice_zeros hle, overwrite_eq h, size_zeros]
  | case3 bytes offset count _ hle ih =>
    -- The first block makes a front of its own, behind which the remaining blocks are written.
    have hfront : (bytes.extract 0 offset ++ zeroBlock).size = offset + zeroBlock.size := by
      simp [h]
    have hzeros : zeroBlock ++ zeros (count - zeroBlock.size) = zeros count := by
      rw [zeroBlock, size_zeros] at *
      rw [zeros_append, show 65536 + (count - 65536) = count by omega]
    have hrest : (bytes.extract 0 offset ++ zeroBlock ++
        bytes.extract (offset + zeroBlock.size) bytes.size).extract (offset + count)
          (bytes.extract 0 offset ++ zeroBlock ++
            bytes.extract (offset + zeroBlock.size) bytes.size).size =
        bytes.extract (offset + count) bytes.size := by
      rw [extract_append_of_le (by omega), hfront, extract_extract_size,
        show offset + zeroBlock.size + (offset + count - (offset + zeroBlock.size)) =
          offset + count by omega]
    rw [overwrite_eq h] at ih ⊢
    rw [ih (by rw [ByteArray.size_append]; omega), ByteArray.extract_append_eq_left hfront.symm,
      show offset + zeroBlock.size + (count - zeroBlock.size) = offset + count by omega, hrest,
      ByteArray.append_assoc, ByteArray.append_assoc, ← hzeros]
    simp only [ByteArray.append_assoc]

theorem size_zeroFill (h : offset + count ≤ bytes.size) :
    (zeroFill bytes offset count).size = bytes.size := by
  rw [zeroFill_eq (by omega)]
  simp
  omega

theorem byteAt_zeroFill_eq (h : offset ≤ bytes.size) (index : Nat) :
    byteAt (zeroFill bytes offset count) index =
      if offset ≤ index ∧ index < offset + count then 0 else byteAt bytes index := by
  have hfront : (bytes.extract 0 offset).size = offset := by
    rw [ByteArray.size_extract]
    omega
  have hzeros : (bytes.extract 0 offset ++ zeros count).size = offset + count := by
    rw [ByteArray.size_append, hfront, size_zeros]
  rw [zeroFill_eq h]
  rcases Nat.lt_or_ge index (offset + count) with hstop | hbehind
  · rw [byteAt_append_left (by omega)]
    rcases Nat.lt_or_ge index offset with hbefore | hstart
    · rw [if_neg (by omega), byteAt_append_left (by omega), byteAt_extract (by omega), Nat.zero_add]
    · rw [if_pos ⟨hstart, hstop⟩, byteAt_append_right (by omega), byteAt_zeros]
  · rw [if_neg (by omega), byteAt_append_right (by omega), hzeros]
    rcases Nat.lt_or_ge index bytes.size with hin | hout
    · rw [byteAt_extract (by omega), Nat.add_sub_cancel' hbehind]
    · rw [byteAt_of_le hout, byteAt_of_le (by rw [ByteArray.size_extract]; omega)]

theorem byteAt_zeroFill {index : Nat} (h : offset ≤ bytes.size)
    (hi : index < offset ∨ offset + count ≤ index) :
    byteAt (zeroFill bytes offset count) index = byteAt bytes index := by
  rw [byteAt_zeroFill_eq h, if_neg (by omega)]

end

end ClassicZip.Bytes
