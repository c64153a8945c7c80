import ClassicZip.Codec.Bits

/-!
# Writing bit streams

Bits gather in a word until whole bytes of them can be put out, in either order.
-/

namespace ClassicZip.Codec

structure BitWriter where
  order : BitOrder
  bytes : ByteArray
  /-- Bits not yet in a whole byte; in `lowFirst` order the earliest is lowest. -/
  pending : Nat
  count : Nat

namespace BitWriter

def empty (order : BitOrder) : BitWriter := ⟨order, ByteArray.empty, 0, 0⟩

def drain : Nat → BitWriter → BitWriter
  | 0, writer => writer
  | fuel + 1, ⟨order, bytes, pending, count⟩ =>
    if count < 8 then ⟨order, bytes, pending, count⟩
    else match order with
      | .lowFirst =>
        drain fuel ⟨order, bytes.push (pending % 256).toUInt8, pending / 256, count - 8⟩
      | .highFirst =>
        drain fuel ⟨order, bytes.push (pending / 2 ^ (count - 8)).toUInt8,
          pending % 2 ^ (count - 8), count - 8⟩

def put (writer : BitWriter) (value count : Nat) : BitWriter :=
  match writer with
  | ⟨order, bytes, pending, before⟩ =>
    let value := value % 2 ^ count
    let pending := match order with
      | .lowFirst => pending + value * 2 ^ before
      | .highFirst => pending * 2 ^ count + value
    drain (before + count) ⟨order, bytes, pending, before + count⟩

def align (writer : BitWriter) : BitWriter :=
  if writer.count = 0 then writer else writer.put 0 (8 - writer.count)

def toBytes (writer : BitWriter) : ByteArray := writer.align.bytes

end BitWriter

end ClassicZip.Codec
