import ClassicZip.Codec.Zstd.BackwardBits

/-!
# Frame headers

The first byte behind the magic number gives the form of a header. A frame has a window, or is a
single segment whose window is its content. A size of all ones stands for a size that is not
declared.
-/

namespace ClassicZip.Codec.Zstd

def frameMagic : Nat := 0xFD2FB528

def maxBlockSize : Nat := 131072

def littleEndian (bytes : ByteArray) (index count : Nat) : Nat :=
  BackwardBits.gather bytes index count

def windowOf (descriptor : Nat) : Nat :=
  let base := 2 ^ (descriptor / 8 + 10)
  base + base / 8 * (descriptor % 8)

def maxDescriptor : Nat := 21 * 8 + 7

/-- A declared size of 64 bits. -/
def declared? (size : Nat) : Option Nat := if size = 2 ^ 64 - 1 then none else some size

/-- How many bytes the parts of a header behind its first byte take. -/
structure HeaderForm where
  single : Bool
  dictionaryBytes : Nat
  contentBytes : Nat

namespace HeaderForm

def ofByte (form : Nat) : HeaderForm :=
  let single := form / 32 % 2 == 1
  { single := single
    dictionaryBytes := #[0, 1, 2, 4][form % 4]?.getD 0
    contentBytes := #[if single then 1 else 0, 2, 4, 8][form / 64]?.getD 0 }

def windowBytes (form : HeaderForm) : Nat := if form.single then 0 else 1

def size (form : HeaderForm) : Nat :=
  5 + form.windowBytes + form.dictionaryBytes + form.contentBytes

end HeaderForm

structure FrameHeader where
  window : Nat
  contentSize : Option Nat
  hasChecksum : Bool

namespace FrameHeader

/-- The header at `start`, if it asks for nothing that is not there: no dictionary and no reserved
bit. -/
def at? (bytes : ByteArray) (start : Nat) : Option FrameHeader :=
  let byte := (Bytes.byteAt bytes (start + 4)).toNat
  let form := HeaderForm.ofByte byte
  let descriptor := (Bytes.byteAt bytes (start + 5)).toNat
  let dictionaryStart := start + 5 + form.windowBytes
  let content := littleEndian bytes (dictionaryStart + form.dictionaryBytes) form.contentBytes
  let content := if form.contentBytes = 2 then content + 256 else content
  if byte / 8 % 2 = 1 || (!form.single && maxDescriptor < descriptor) ||
      littleEndian bytes dictionaryStart form.dictionaryBytes ≠ 0 then none
  else some {
    window := if form.single then content else windowOf descriptor
    contentSize := if form.contentBytes = 0 then none else declared? content
    hasChecksum := byte / 4 % 2 == 1 }

def blockSize (header : FrameHeader) : Nat := min header.window maxBlockSize

end FrameHeader

/-- The three bytes in front of a block. -/
structure BlockHeader where
  last : Bool
  kind : Nat
  size : Nat

namespace BlockHeader

def read (bytes : ByteArray) (start : Nat) : BlockHeader :=
  let head := littleEndian bytes start 3
  ⟨head % 2 == 1, head / 2 % 4, head / 8⟩

/-- A repeated byte stands once in the input. -/
def storedSize (header : BlockHeader) : Nat := if header.kind = 1 then 1 else header.size

def isReserved (header : BlockHeader) : Bool := header.kind == 3

end BlockHeader

/-- Where the blocks from `position` on end, if the last one ends within `chunkEnd`; `fuel` bounds
the blocks. -/
def blocksEnd? (bytes : ByteArray) (chunkEnd : Nat) : Nat → Nat → Option Nat
  | 0, _ => none
  | fuel + 1, position =>
    let header := BlockHeader.read bytes position
    let next := position + 3 + header.storedSize
    if chunkEnd < position + 3 || header.isReserved || chunkEnd < next then none
    else if header.last then some next
    else blocksEnd? bytes chunkEnd fuel next

end ClassicZip.Codec.Zstd
