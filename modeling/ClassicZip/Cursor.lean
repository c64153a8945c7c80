import ClassicZip.Bytes

/-!
# Bounds-checked reading

A cursor is a buffer with a position. A call that asks for more than is left fails, names the
position, the need and what was left, and moves nothing.
-/

namespace ClassicZip

inductive ReadFault
  /-- Fewer bytes are left than the call needs. -/
  | shortfall (position needed available : Nat)
  /-- The cursor stands past the end of its buffer, where not even zero bytes can be taken. -/
  | outOfRange (position size : Nat)
  deriving DecidableEq, Repr

def ReadFault.message : ReadFault → String
  | .shortfall position needed available =>
    s!"unexpected end of buffer at {position}: needed {needed} bytes but only {available} available"
  | .outOfRange position size => s!"position {position} is past the end of a buffer of {size} bytes"

structure Cursor where
  buffer : ByteArray
  position : Nat

namespace Cursor

def ofBytes (buffer : ByteArray) : Cursor := ⟨buffer, 0⟩

def remaining (cursor : Cursor) : Nat := cursor.buffer.size - cursor.position

def isAtEnd (cursor : Cursor) : Bool := cursor.buffer.size ≤ cursor.position

def peek (cursor : Cursor) (count : Nat) : Except ReadFault ByteArray :=
  if cursor.remaining < count then
    .error (.shortfall cursor.position count cursor.remaining)
  else if cursor.buffer.size < cursor.position then
    .error (.outOfRange cursor.position cursor.buffer.size)
  else .ok (Bytes.slice cursor.buffer cursor.position count)

def take (cursor : Cursor) (count : Nat) : Except ReadFault (ByteArray × Cursor) :=
  match cursor.peek count with
  | .ok bytes => .ok (bytes, { cursor with position := cursor.position + count })
  | .error fault => .error fault

def takeU16 (cursor : Cursor) : Except ReadFault (UInt16 × Cursor) :=
  match cursor.take 2 with
  | .ok (bytes, next) => .ok (Bytes.u16At bytes 0, next)
  | .error fault => .error fault

def takeU32 (cursor : Cursor) : Except ReadFault (UInt32 × Cursor) :=
  match cursor.take 4 with
  | .ok (bytes, next) => .ok (Bytes.u32At bytes 0, next)
  | .error fault => .error fault

def peekU32 (cursor : Cursor) : Except ReadFault UInt32 :=
  match cursor.peek 4 with
  | .ok bytes => .ok (Bytes.u32At bytes 0)
  | .error fault => .error fault

end Cursor

end ClassicZip
