import ClassicZip.Codec.Zstd.FrameHeader

/-!
# Early versions of the format

Versions 4 to 7 have magic numbers and frame headers of their own. Their blocks start with two bits
for the kind, and a frame ends with a block of its own kind.
-/

namespace ClassicZip.Codec.Zstd

inductive EarlyVersion
  | four
  | five
  | six
  | seven
  deriving DecidableEq, Repr

namespace EarlyVersion

def magic : EarlyVersion → Nat
  | four => 0xFD2FB524
  | five => 0xFD2FB525
  | six => 0xFD2FB526
  | seven => 0xFD2FB527

def ofMagic? (magic : Nat) : Option EarlyVersion :=
  [four, five, six, seven].find? (·.magic = magic)

/-- The size of a frame header with its magic number, by the byte behind that number. -/
def headerSize (form : Nat) : EarlyVersion → Nat
  | four | five => 5
  | six => 5 + #[0, 1, 2, 8][form / 64]?.getD 0
  | seven => (HeaderForm.ofByte form).size

end EarlyVersion

structure EarlyHeader where
  version : EarlyVersion
  window : Nat
  hasChecksum : Bool

namespace EarlyHeader

/-- The windows of versions 4 to 6 are powers of two, the least one with this exponent. -/
def leastLog : EarlyVersion → Nat
  | .four | .five => 11
  | _ => 12

def maxWindow : Nat := 2 ^ 27

/-- The window of version 7: its own, or the content of a single segment in 32 bits. -/
def windowSeven? (bytes : ByteArray) (start : Nat) : Option Nat :=
  let form := HeaderForm.ofByte (Bytes.byteAt bytes (start + 4)).toNat
  let content := littleEndian bytes (start + form.size - form.contentBytes) form.contentBytes
  let content := if form.contentBytes = 2 then content + 256 else content
  let window :=
    if form.single then content % 2 ^ 32 else windowOf (Bytes.byteAt bytes (start + 5)).toNat
  let dictionary := littleEndian bytes (start + 5 + form.windowBytes) form.dictionaryBytes
  if maxWindow < window || dictionary ≠ 0 then none else some (max window 1024)

def at? (version : EarlyVersion) (bytes : ByteArray) (start : Nat) : Option EarlyHeader :=
  let form := (Bytes.byteAt bytes (start + 4)).toNat
  let reserved := match version with
    | .four | .five => form / 16
    | .six => form / 32 % 2
    | .seven => form / 8 % 2
  if reserved ≠ 0 then none
  else match version with
    | .seven => (windowSeven? bytes start).map fun window => ⟨version, window, form / 4 % 2 == 1⟩
    | _ => some ⟨version, 2 ^ (form % 16 + leastLog version), false⟩

def blockSize (header : EarlyHeader) : Nat :=
  match header.version with
  | .four | .five => maxBlockSize
  | _ => min header.window maxBlockSize

def outputSize (header : EarlyHeader) : Nat :=
  match header.version with
  | .four | .five => header.window
  | _ => header.window + header.blockSize + 16

end EarlyHeader

inductive EarlyBlockKind
  | compressed
  | plain
  | repeated
  | finish
  deriving DecidableEq, Repr

structure EarlyBlockHeader where
  kind : EarlyBlockKind
  size : Nat

namespace EarlyBlockHeader

def read (bytes : ByteArray) (start : Nat) : EarlyBlockHeader :=
  let first := (Bytes.byteAt bytes start).toNat
  let size := first % 8 * 2 ^ 16 + (Bytes.byteAt bytes (start + 1)).toNat * 2 ^ 8 +
    (Bytes.byteAt bytes (start + 2)).toNat
  match first / 64 with
  | 0 => ⟨.compressed, size⟩
  | 1 => ⟨.plain, size⟩
  | 2 => ⟨.repeated, 1⟩
  | _ => ⟨.finish, 0⟩

def checksumAt (bytes : ByteArray) (start : Nat) : Nat :=
  (Bytes.byteAt bytes start).toNat % 64 * 2 ^ 16 + (Bytes.byteAt bytes (start + 1)).toNat * 2 ^ 8 +
    (Bytes.byteAt bytes (start + 2)).toNat

end EarlyBlockHeader

end ClassicZip.Codec.Zstd
