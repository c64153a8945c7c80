import ClassicZip.Bytes

/-!
# How a caller asks for output

A caller gathers output in a buffer and asks for it in portions. Where the buffer has little room
the caller first asks for a few bytes, to see whether anything comes at all. Otherwise it asks for
what the buffer can take, up to a largest portion that doubles whenever it comes back full. The
buffer grows to at least twice its capacity.
-/

namespace ClassicZip.Codec

/-- What is asked for in order to see whether anything comes. -/
def probeSize : Nat := 32

def firstPortion : Nat := 8192

def maxReserve : Nat := 2 ^ 26

structure Gathering where
  /-- The bytes wanted in all. -/
  wanted : Nat
  size : Nat
  capacity : Nat
  /-- The capacity at the start. -/
  reserved : Nat
  largest : Nat
  probing : Bool

namespace Gathering

def start (expected wanted : Nat) : Gathering :=
  let reserved := min expected maxReserve
  ⟨wanted, 0, reserved, reserved, firstPortion, reserved < probeSize⟩

def isFull (gathering : Gathering) : Bool := gathering.wanted ≤ gathering.size

def grow (gathering : Gathering) (count : Nat) : Gathering :=
  if count ≤ gathering.capacity - gathering.size then gathering
  else { gathering with
    capacity := max (max (2 * gathering.capacity) (gathering.size + count)) 8 }

/-- The room that the next portion would fill if all of it were wanted. -/
def room (gathering : Gathering) : Nat :=
  if gathering.probing then probeSize
  else min (gathering.capacity - gathering.size) gathering.largest

def portion (gathering : Gathering) : Nat :=
  min gathering.room (gathering.wanted - gathering.size)

/-- Once `count` bytes of the next portion have come. A buffer that is exactly full may be all that
was needed, so the caller probes before it grows. -/
def after (gathering : Gathering) (count : Nat) : Gathering :=
  let grown := if gathering.probing then gathering.grow count else gathering
  let doubles := !gathering.probing && gathering.largest ≤ count
  let gathered := { grown with
    size := gathering.size + count
    largest := if doubles then 2 * gathering.largest else gathering.largest }
  if gathered.size = gathered.capacity && gathered.capacity = gathered.reserved then
    { gathered with probing := true }
  else
    { gathered.grow (if gathered.size = gathered.capacity then probeSize else 0) with
      probing := false }

/-- Portions that take only what is ready, `ready` bytes in all; `fuel` bounds them. -/
def drain : Nat → Nat → Gathering → Gathering
  | 0, _, gathering => gathering
  | fuel + 1, ready, gathering =>
    if ready = 0 || gathering.isFull then gathering
    else
      let count := min ready gathering.portion
      drain fuel (ready - count) (gathering.after count)

end Gathering

end ClassicZip.Codec
