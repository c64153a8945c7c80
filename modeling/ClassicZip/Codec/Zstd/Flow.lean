import ClassicZip.Codec.Decoder
import ClassicZip.Codec.Gathering

/-!
# What flows through a zstd decoder

Input comes in chunks, and output leaves in the portions that the caller asks for. A portion is
done when it is full and more output waits, when a frame ends, or when the chunk at hand runs out.
Output that waits is handed over before anything else is decoded. The caller leaves as soon as it
has more than it expected.
-/

namespace ClassicZip.Codec.Zstd

def chunkSize : Nat := 131075

structure Flow where
  input : ByteArray
  position : Nat
  /-- The end of the chunk at hand. -/
  chunkEnd : Nat
  /-- All bytes decoded so far. -/
  output : ByteArray
  gathering : Gathering
  /-- The portion at hand, and what of it is still to come. -/
  asked : Nat
  room : Nat

namespace Flow

def start (expected : Nat) (input : ByteArray) : Flow :=
  let gathering := Gathering.start expected (expected + 1)
  ⟨input, 0, min input.size chunkSize, ByteArray.empty, gathering, gathering.portion,
    gathering.portion⟩

def left (flow : Flow) : Nat := flow.input.size - flow.position

/-- The next portion, if the caller stays. -/
def ask (flow : Flow) (gathering : Gathering) : Except Expansion Flow :=
  if gathering.isFull then .error (.overflow flow.output)
  else .ok { flow with
    gathering := gathering, asked := gathering.portion, room := gathering.portion }

/-- Ends the portion at hand, unless nothing of it has come yet. -/
def endPortion (flow : Flow) : Except Expansion Flow :=
  if flow.room = flow.asked then .ok flow
  else flow.ask (flow.gathering.after (flow.asked - flow.room))

def handOver (flow : Flow) (count : Nat) : Except Expansion Flow :=
  if count ≤ flow.room then .ok { flow with room := flow.room - count }
  else
    let ready := count - flow.room
    flow.ask ((flow.gathering.after flow.asked).drain ready ready)

def await (flow : Flow) (count : Nat) : Except Expansion Flow :=
  if flow.position + count ≤ flow.chunkEnd then .ok flow
  else match flow.endPortion with
    | .error expansion => .error expansion
    | .ok next =>
      if flow.input.size ≤ flow.chunkEnd then .error .corrupt
      else await { next with
        input := flow.input
        chunkEnd := min flow.input.size (flow.chunkEnd + chunkSize) } count
termination_by flow.input.size - flow.chunkEnd
decreasing_by
  simp only [chunkSize]
  omega

def take (flow : Flow) (count : Nat) : ByteArray × Flow :=
  (Bytes.slice flow.input flow.position count, { flow with position := flow.position + count })

end Flow

end ClassicZip.Codec.Zstd
