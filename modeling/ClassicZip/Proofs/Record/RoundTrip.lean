import ClassicZip.Proofs.Bytes.Concatenation
import ClassicZip.Record

/-!
# Records read back

The fields of a record lie one behind the other, so decoding an encoded record gives each field
back. They leave no byte out, so encoding a decoded record gives the bytes back. A length or an
offset within the limits of the format fits its field.
-/

namespace ClassicZip

open Bytes

theorem toNat_ofNat_of_le_maxLength {length : Nat} (h : length ≤ maxLength) :
    (UInt16.ofNat length).toNat = length :=
  UInt16.toNat_ofNat_of_lt (Nat.lt_of_le_of_lt h (by decide))

theorem toNat_ofNat_of_le_maxOffset {offset : Nat} (h : offset ≤ maxOffset) :
    (UInt32.ofNat offset).toNat = offset :=
  UInt32.toNat_ofNat_of_lt (Nat.lt_of_le_of_lt h (by decide))

theorem toNat_le_maxLength (length : UInt16) : length.toNat ≤ maxLength :=
  Nat.le_of_lt_succ length.toNat_lt

theorem LocalHeader.decode_encode (header : LocalHeader) : decode header.encode = header := by
  simp [decode, encode, ByteArray.append_assoc]

theorem LocalHeader.encode_decode {bytes : ByteArray} (h : bytes.size = bodySize) :
    (decode bytes).encode = bytes := by
  rw [bodySize] at h
  simp only [encode, decode, le16_u16At, le32_u32At, h, Nat.reduceAdd, Nat.reduceLeDiff,
    slice_append_slice]
  rw [← h, slice_eq_self]

theorem DirectoryHeader.decode_encode (header : DirectoryHeader) :
    decode header.encode = header := by
  simp [decode, encode, ByteArray.append_assoc]

theorem DirectoryHeader.encode_decode {bytes : ByteArray} (h : bytes.size = bodySize) :
    (decode bytes).encode = bytes := by
  rw [bodySize] at h
  simp only [encode, decode, le16_u16At, le32_u32At, h, Nat.reduceAdd, Nat.reduceLeDiff,
    slice_append_slice]
  rw [← h, slice_eq_self]

theorem EndRecord.decode_encode (record : EndRecord) : decode record.encode = record := by
  simp [decode, encode, ByteArray.append_assoc]

theorem EndRecord.encode_decode {bytes : ByteArray} (h : bytes.size = bodySize) :
    (decode bytes).encode = bytes := by
  rw [bodySize] at h
  simp only [encode, decode, le16_u16At, le32_u32At, h, Nat.reduceAdd, Nat.reduceLeDiff,
    slice_append_slice]
  rw [← h, slice_eq_self]

end ClassicZip
