import ClassicZip.Bytes

/-!
# Bit streams

Bytes read bit by bit, from the low or from the high end of each byte. A number taken from the
stream has its first bit lowest or highest accordingly. A reader that fails tells a stream that
ends too soon from one that is wrong.
-/

namespace ClassicZip.Codec

inductive Refusal
  /-- The stream ends in the middle of it. -/
  | short
  /-- No stream has this in its place. -/
  | corrupt
  deriving DecidableEq, Repr

inductive BitOrder
  | lowFirst
  | highFirst
  deriving DecidableEq, Repr

structure Bits where
  order : BitOrder
  bytes : ByteArray
  /-- Bits taken so far. -/
  position : Nat

namespace Bits

def left (bits : Bits) : Nat := 8 * bits.bytes.size - bits.position

@[inline] def bitAt (bits : Bits) (position : Nat) : Nat :=
  let byte := (Bytes.byteAt bits.bytes (position / 8)).toNat
  match bits.order with
  | .lowFirst => byte >>> (position % 8) % 2
  | .highFirst => byte >>> (7 - position % 8) % 2

def skip (bits : Bits) (count : Nat) : Bits := { bits with position := bits.position + count }

def numberAt (bits : Bits) (position : Nat) : Nat → Nat
  | 0 => 0
  | count + 1 =>
    match bits.order with
    | .lowFirst => bits.bitAt position + 2 * numberAt bits (position + 1) count
    | .highFirst => bits.bitAt position * 2 ^ count + numberAt bits (position + 1) count

def take? (bits : Bits) (count : Nat) : Option (Nat × Bits) :=
  if count ≤ bits.left then some (bits.numberAt bits.position count, bits.skip count) else none

def touched (bits : Bits) : Nat := (bits.position + 7) / 8

/-- The stream up to the end of the chunk in hand, for bytes that come in chunks of one size. -/
def confine (bits : Bits) (chunk : Nat) : Bits :=
  { bits with bytes := bits.bytes.extract 0 ((bits.touched + chunk - 1) / chunk * chunk) }

def alignToByte (bits : Bits) : Bits :=
  { bits with position := (bits.position + 7) / 8 * 8 }

theorem left_of_take? {bits next : Bits} {count value : Nat}
    (h : bits.take? count = some (value, next)) : next.left + count = bits.left := by
  unfold take? at h
  split at h
  case isTrue hc =>
    simp only [Option.some.injEq, Prod.mk.injEq] at h
    obtain ⟨_, rfl⟩ := h
    simp only [left, skip] at *
    omega
  case isFalse => simp at h

theorem left_alignToByte_le (bits : Bits) : bits.alignToByte.left ≤ bits.left := by
  simp only [left, alignToByte]
  omega

end Bits

/-- Takes a value off the front of a bit stream, or fails; it never puts bits back. -/
structure BitReader (α : Type) where
  read : (bits : Bits) → Except Refusal (α × { rest : Bits // rest.left ≤ bits.left })

namespace BitReader

instance : Monad BitReader where
  pure value := ⟨fun bits => .ok (value, ⟨bits, Nat.le_refl _⟩)⟩
  bind reader continuation := ⟨fun bits =>
    match reader.read bits with
    | .error cause => .error cause
    | .ok (value, rest) =>
      match (continuation value).read rest.val with
      | .error cause => .error cause
      | .ok (result, last) => .ok (result, ⟨last.val, Nat.le_trans last.property rest.property⟩)⟩

def fail {α : Type} : BitReader α := ⟨fun _ => .error .corrupt⟩

def require (condition : Bool) : BitReader Unit := if condition then pure () else fail

def ofOption {α : Type} : Option α → BitReader α
  | some value => pure value
  | none => fail

def number (count : Nat) : BitReader Nat where
  read bits :=
    match h : bits.take? count with
    | none => .error .short
    | some (value, rest) => .ok (value, ⟨rest, by have := Bits.left_of_take? h; omega⟩)

def flag : BitReader Bool := do
  return (← number 1) == 1

def left : BitReader Nat := ⟨fun bits => .ok (bits.left, ⟨bits, Nat.le_refl _⟩)⟩

/-- The count of set bits before the next clear one, which is taken too; at most `most`. -/
def unary : Nat → BitReader Nat
  | 0 => fail
  | most + 1 => do
    if ← flag then return (← unary most) + 1 else return 0

end BitReader

end ClassicZip.Codec
