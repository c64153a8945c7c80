/-!
# CRC-32

The checksum of entry data: the reflected polynomial `0xEDB88320`, all ones at the start and
inverted at the end. `table` holds the remainder of each byte, so a step costs one look-up. The
blocks of a bzip2 stream have the same checksum with the bits of each byte taken from the high end;
their sum closes the stream.
-/

namespace ClassicZip.Crc32

/-- Divides out the low bit once. -/
def shiftOnce (value : UInt32) : UInt32 :=
  if value &&& 1 = 1 then (value >>> 1) ^^^ 0xEDB88320 else value >>> 1

def byteRemainder (byte : UInt32) : UInt32 :=
  Nat.repeat shiftOnce 8 byte

def table : Array UInt32 :=
  Array.ofFn fun index : Fin 256 => byteRemainder (UInt32.ofNat index)

@[simp] theorem size_table : table.size = 256 := by simp [table]

def step (register : UInt32) (byte : UInt8) : UInt32 :=
  have inTable : (register.toUInt8 ^^^ byte).toNat < table.size := by
    rw [size_table]
    exact (register.toUInt8 ^^^ byte).toNat_lt
  table[(register.toUInt8 ^^^ byte).toNat] ^^^ (register >>> 8)

end ClassicZip.Crc32

namespace ClassicZip

def crc32 (data : ByteArray) : UInt32 :=
  data.foldl Crc32.step 0xFFFFFFFF ^^^ 0xFFFFFFFF

end ClassicZip

namespace ClassicZip.Codec.Bzip2.Checksum

/-- Divides out the high bit once. -/
def shiftOnce (value : UInt32) : UInt32 :=
  if value &&& 0x80000000 = 0 then value <<< 1 else (value <<< 1) ^^^ 0x04C11DB7

def table : Array UInt32 :=
  Array.ofFn fun index : Fin 256 => Nat.repeat shiftOnce 8 (UInt32.ofNat index <<< 24)

@[simp] theorem size_table : table.size = 256 := by simp [table]

def initial : UInt32 := 0xFFFFFFFF

def step (register : UInt32) (byte : UInt8) : UInt32 :=
  let index := (register >>> 24).toUInt8 ^^^ byte
  have inTable : index.toNat < table.size := by
    rw [size_table]
    exact index.toNat_lt
  table[index.toNat] ^^^ (register <<< 8)

def ofRegister (register : UInt32) : UInt32 := register ^^^ 0xFFFFFFFF

/-- The sum over the stream once a block with checksum `block` is added. -/
def combine (stream block : UInt32) : UInt32 := ((stream <<< 1) ||| (stream >>> 31)) ^^^ block

end ClassicZip.Codec.Bzip2.Checksum
