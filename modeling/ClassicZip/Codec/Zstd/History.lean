import ClassicZip.Bytes

/-!
# The history that a match copies from

Decoded bytes go to a buffer. When the buffer is full the next bytes start at its front again, and
what was there stays in reach until it is overwritten. The bytes since the last such turn are a
segment; a match reaches back into the segment before, but no further.

Bytes are copied in strides, which put more into the buffer than they have to. What spills over
lies in the segment before, where a match that reaches back that far finds it.
-/

namespace ClassicZip.Codec.Zstd

/-- How many bytes are put into the buffer in order to copy a number of them. -/
structure Strides where
  literals : Nat → Nat
  /-- For a match at some offset, so far as its bytes are of the segment at hand. -/
  matched : (offset length : Nat) → Nat
  /-- Fewer bytes are copied one by one where a match comes to them from the segment before. -/
  leastRest : Nat

namespace Strides

/-- Sixteen bytes, and then as often as needed thirty-two. -/
def wide (length : Nat) : Nat := 16 + (length - 16 + 31) / 32 * 32

/-- At least once eight bytes. -/
def narrow (length : Nat) : Nat := 8 * max 1 ((length + 7) / 8)

def present : Strides where
  literals length := if length ≤ 16 then 16 else 16 + wide (length - 16)
  matched offset length :=
    if 16 ≤ offset then wide length else if length ≤ 8 then 8 else 8 + narrow (length - 8)
  leastRest := 0

end Strides

structure History where
  /-- Where in the output the segment before the one at hand starts. -/
  previous : Nat
  /-- Where in the output the segment at hand starts. -/
  segment : Nat
  /-- Bytes in the buffer that are not output, and where in the output they would stand. -/
  spill : ByteArray
  spillStart : Nat

namespace History

def start (size : Nat) : History := ⟨size, size, ByteArray.empty, size⟩

def turn (history : History) (size : Nat) : History :=
  ⟨history.segment, size, ByteArray.empty, size⟩

/-- The byte that the buffer holds for the output at `index`, while the output is written from
`size` on. -/
def byteAt (history : History) (output : ByteArray) (size index : Nat) : UInt8 :=
  if history.segment ≤ index then Bytes.byteAt output index
  else
    let present := history.segment + (index - history.previous)
    if present < size then Bytes.byteAt output present
    else if present - history.spillStart < history.spill.size then
      Bytes.byteAt history.spill (present - history.spillStart)
    else Bytes.byteAt output index

/-- The history once `extra` has been put behind an output of `size` bytes. -/
def spillOver (history : History) (size : Nat) (extra : ByteArray) : History :=
  let behind := history.spill.extract (size + extra.size - history.spillStart) history.spill.size
  { history with spill := extra ++ behind, spillStart := size }

def isSingle (history : History) : Bool := history.previous == history.segment

/-- Appends literals from `start` to `stop`; what `source` holds behind them may spill over. -/
def copyLiterals (history : History) (strides : Strides) (source : ByteArray) (start stop : Nat)
    (output : ByteArray) : ByteArray × History :=
  let copied := output ++ source.extract start stop
  if history.isSingle then (copied, history)
  else
    let extra := source.extract stop (start + strides.literals (stop - start))
    (copied, history.spillOver copied.size extra)

/-- Appends `count` bytes from `index` on, for a match that starts at an output of `size` bytes. -/
def copyFrom (history : History) (size : Nat) : Nat → Nat → ByteArray → ByteArray
  | _, 0, output => output
  | index, count + 1, output =>
    history.copyFrom size (index + 1) count (output.push (history.byteAt output size index))

/-- Repeats `length` bytes from `offset` back, which may run into the copy itself. -/
def copyMatch (history : History) (strides : Strides) (output : ByteArray) (offset length : Nat) :
    ByteArray × History :=
  let start := output.size - offset
  let copied := history.copyFrom output.size start length output
  let ofSegment := length - (history.segment - start)
  let isSingly := start < history.segment && ofSegment < strides.leastRest
  if history.isSingle || ofSegment = 0 || isSingly then (copied, history)
  else
    let extra := history.copyFrom output.size (start + length)
      (strides.matched offset ofSegment - ofSegment) copied
    (copied, history.spillOver copied.size (extra.extract copied.size extra.size))

def reaches (history : History) (size offset : Nat) : Bool :=
  offset != 0 && history.previous + offset ≤ size

end History

end ClassicZip.Codec.Zstd
