import ClassicZip.Bytes

/-!
# XXH64

The checksum behind a zstd frame is the low half of this hash with seed zero. Stripes of 32 bytes
feed four lanes; what is left over is mixed in by words, half words and bytes.
-/

namespace ClassicZip.Codec.Zstd.Xxh64

def prime1 : UInt64 := 11400714785074694791
def prime2 : UInt64 := 14029467366897019727
def prime3 : UInt64 := 1609587929392839161
def prime4 : UInt64 := 9650029242287828579
def prime5 : UInt64 := 2870177450012600261

def rotate (value count : UInt64) : UInt64 := (value <<< count) ||| (value >>> (64 - count))

def wordAt (bytes : ByteArray) (index : Nat) : UInt64 :=
  (Bytes.u32At bytes index).toUInt64 ||| ((Bytes.u32At bytes (index + 4)).toUInt64 <<< 32)

def round (lane word : UInt64) : UInt64 := rotate (lane + word * prime2) 31 * prime1

structure Lanes where
  a : UInt64
  b : UInt64
  c : UInt64
  d : UInt64

namespace Lanes

def start : Lanes := ⟨prime1 + prime2, prime2, 0, 0 - prime1⟩

def stripe (lanes : Lanes) (bytes : ByteArray) (index : Nat) : Lanes where
  a := round lanes.a (wordAt bytes index)
  b := round lanes.b (wordAt bytes (index + 8))
  c := round lanes.c (wordAt bytes (index + 16))
  d := round lanes.d (wordAt bytes (index + 24))

def stripes (bytes : ByteArray) : Nat → Nat → Lanes → Lanes
  | 0, _, lanes => lanes
  | count + 1, index, lanes => stripes bytes count (index + 32) (lanes.stripe bytes index)

def mergeLane (hash lane : UInt64) : UInt64 := (hash ^^^ round 0 lane) * prime1 + prime4

def merge (lanes : Lanes) : UInt64 :=
  let sum := rotate lanes.a 1 + rotate lanes.b 7 + rotate lanes.c 12 + rotate lanes.d 18
  mergeLane (mergeLane (mergeLane (mergeLane sum lanes.a) lanes.b) lanes.c) lanes.d

end Lanes

def words (bytes : ByteArray) : Nat → Nat → UInt64 → UInt64
  | 0, _, hash => hash
  | count + 1, index, hash =>
    words bytes count (index + 8)
      (rotate (hash ^^^ round 0 (wordAt bytes index)) 27 * prime1 + prime4)

def singles (bytes : ByteArray) : Nat → Nat → UInt64 → UInt64
  | 0, _, hash => hash
  | count + 1, index, hash =>
    singles bytes count (index + 1)
      (rotate (hash ^^^ ((Bytes.byteAt bytes index).toUInt64 * prime5)) 11 * prime1)

def avalanche (hash : UInt64) : UInt64 :=
  let hash := (hash ^^^ (hash >>> 33)) * prime2
  let hash := (hash ^^^ (hash >>> 29)) * prime3
  hash ^^^ (hash >>> 32)

def hash (bytes : ByteArray) (start : Nat) : UInt64 :=
  let size := bytes.size - start
  let stripeCount := size / 32
  let base := if stripeCount = 0 then prime5
    else (Lanes.stripes bytes stripeCount start .start).merge
  let afterStripes := start + 32 * stripeCount
  let left := size % 32
  let value := words bytes (left / 8) afterStripes (base + size.toUInt64)
  let afterWords := afterStripes + left / 8 * 8
  let value :=
    if 4 ≤ left % 8 then
      rotate (value ^^^ ((Bytes.u32At bytes afterWords).toUInt64 * prime1)) 23 * prime2 + prime3
    else value
  avalanche (singles bytes (left % 4) (afterWords + left % 8 / 4 * 4) value)

end ClassicZip.Codec.Zstd.Xxh64
