/-!
# Byte strings

Little-endian words, positional reads and the three ways an image of bytes changes in place:
overwriting a range, filling a range with zeros, and being cut or extended to a length. Powers of
numbers and the equality of byte strings are the core ones, also where another library that a proof
imports has its own.
-/

namespace ClassicZip

@[default_instance 20000]
instance (priority := 2000) natPower : Pow Nat Nat := instPowNat

instance (priority := 2000) byteArrayDecidableEq : DecidableEq ByteArray :=
  ByteArray.instDecidableEq

end ClassicZip

namespace ClassicZip.Bytes

def le16 (value : UInt16) : ByteArray :=
  ⟨#[value.toUInt8, (value >>> 8).toUInt8]⟩

def le32 (value : UInt32) : ByteArray :=
  ⟨#[value.toUInt8, (value >>> 8).toUInt8, (value >>> 16).toUInt8, (value >>> 24).toUInt8]⟩

@[simp] theorem size_le16 (value : UInt16) : (le16 value).size = 2 := rfl

@[simp] theorem size_le32 (value : UInt32) : (le32 value).size = 4 := rfl

/-- The byte at `index`; bytes past the end read as zero. -/
@[inline] def byteAt (bytes : ByteArray) (index : Nat) : UInt8 :=
  if h : index < bytes.size then bytes[index] else 0

def u16At (bytes : ByteArray) (index : Nat) : UInt16 :=
  (byteAt bytes index).toUInt16 ||| ((byteAt bytes (index + 1)).toUInt16 <<< 8)

def u32At (bytes : ByteArray) (index : Nat) : UInt32 :=
  (byteAt bytes index).toUInt32 ||| ((byteAt bytes (index + 1)).toUInt32 <<< 8) |||
    ((byteAt bytes (index + 2)).toUInt32 <<< 16) ||| ((byteAt bytes (index + 3)).toUInt32 <<< 24)

def slice (bytes : ByteArray) (start count : Nat) : ByteArray :=
  bytes.extract start (start + count)

theorem size_slice {bytes : ByteArray} {start count : Nat} (h : start + count ≤ bytes.size) :
    (slice bytes start count).size = count := by
  simp [slice]
  omega

def zeros (count : Nat) : ByteArray :=
  ⟨Array.replicate count 0⟩

@[simp] theorem size_zeros (count : Nat) : (zeros count).size = count := by
  simp [zeros, ByteArray.size]

/-- Cuts or extends with zeros to exactly `length` bytes. -/
def resize (bytes : ByteArray) (length : Nat) : ByteArray :=
  if length < bytes.size then bytes.extract 0 length
  else if length = bytes.size then bytes
  else bytes ++ zeros (length - bytes.size)

/-- Puts `data` over the bytes from `offset` on. A gap before `offset` is filled with zeros;
what lies past the end of `data` stays. -/
def overwrite (bytes : ByteArray) (offset : Nat) (data : ByteArray) : ByteArray :=
  if data.size = 0 then bytes
  else if bytes.size = offset then bytes ++ data
  else if bytes.size < offset then bytes ++ zeros (offset - bytes.size) ++ data
  else data.copySlice 0 bytes offset data.size false

def zeroBlock : ByteArray := zeros 65536

/-- Overwrites `count` bytes from `offset` on with zeros, a block at a time. -/
def zeroFill (bytes : ByteArray) (offset count : Nat) : ByteArray :=
  if count = 0 then bytes
  else if count ≤ zeroBlock.size then overwrite bytes offset (slice zeroBlock 0 count)
  else
    zeroFill (overwrite bytes offset zeroBlock) (offset + zeroBlock.size) (count - zeroBlock.size)
termination_by count
decreasing_by
  have : zeroBlock.size = 65536 := size_zeros 65536
  omega

end ClassicZip.Bytes
