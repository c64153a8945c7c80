import ClassicZip.Bytes

/-!
# Bit streams read from the end

Entropy-coded parts of a zstd block are read from their last bit backwards. The highest set bit of
the last byte only marks where the stream starts. Bits past the front read as zeros and are
counted, since a stream must end exactly at its front.
-/

namespace ClassicZip.Codec.Zstd

structure BackwardBits where
  bytes : ByteArray
  /-- Bits still unread, from the front of `bytes`. -/
  left : Nat
  /-- Bits read past the front. -/
  overdrawn : Nat

namespace BackwardBits

/-- The stream in all of `bytes`; it needs a last byte with a mark. -/
def ofBytes? (bytes : ByteArray) : Option BackwardBits :=
  let last := (Bytes.byteAt bytes (bytes.size - 1)).toNat
  if bytes.size = 0 || last = 0 then none
  else some ⟨bytes, 8 * (bytes.size - 1) + last.log2, 0⟩

def gather (bytes : ByteArray) (index : Nat) : Nat → Nat
  | 0 => 0
  | count + 1 => (Bytes.byteAt bytes index).toNat + 256 * gather bytes (index + 1) count

def numberAt (bytes : ByteArray) (position count : Nat) : Nat :=
  (gather bytes (position / 8) ((position % 8 + count + 7) / 8)) >>> (position % 8) % 2 ^ count

def peek (bits : BackwardBits) (count : Nat) : Nat :=
  if count ≤ bits.left then numberAt bits.bytes (bits.left - count) count
  else numberAt bits.bytes 0 bits.left * 2 ^ (count - bits.left)

/-- The next `count` bits for one who looks on past the front. There the first eight bytes come
again and again, each time with zeros behind them. -/
def look (bits : BackwardBits) (count : Nat) : Nat :=
  if 0 < bits.left then bits.peek count
  else { bits with left := 64 - bits.overdrawn % 64 }.peek count

def skip (bits : BackwardBits) (count : Nat) : BackwardBits :=
  { bits with left := bits.left - count, overdrawn := bits.overdrawn + (count - bits.left) }

def take (bits : BackwardBits) (count : Nat) : Nat × BackwardBits :=
  (bits.look count, bits.skip count)

def isSpent (bits : BackwardBits) : Bool := bits.left == 0 && bits.overdrawn == 0

end BackwardBits

end ClassicZip.Codec.Zstd
