import ClassicZip.Codec.Zstd.Early.Block
import ClassicZip.Codec.Zstd.Flow
import ClassicZip.Codec.Zstd.Xxh64

/-!
# Decoding frames of the early versions

Every block goes through a buffer. A block that is not in the chunk at hand as a whole must fit the
buffer for input. Repeated bytes are refused, and a block without stored bytes ends its frame as a
last block does.
-/

namespace ClassicZip.Codec.Zstd.EarlyFrame

def awaitBlock (flow : Flow) (frame : EarlyFrame) (count : Nat) : Except Expansion Flow := do
  let flow ← flow.await 1
  if flow.chunkEnd < flow.position + count && frame.buffers.input < count then .error .corrupt
  else flow.await count

def ofFlow (flow : Flow) (previous : Option EarlyBuffers) (version : EarlyVersion) :
    Except Expansion (Flow × EarlyFrame) := do
  let form := (Bytes.byteAt flow.input (flow.position + 4)).toNat
  let size := version.headerSize form
  let flow ← flow.await size
  match EarlyHeader.at? version flow.input flow.position with
  | none => .error .corrupt
  | some header => return ((flow.take size).2, .ofHeader header previous flow.output.size)

/-- The bits of a checksum that a last block has room for. -/
def checksum (output : ByteArray) (start : Nat) : Nat :=
  (Xxh64.hash output start).toNat / 2 ^ 11 % 2 ^ 22

def decode? (frame : EarlyFrame) (kind : EarlyBlockKind) (limit : Nat) (stored output : ByteArray) :
    Option (EarlyFrame × ByteArray) :=
  match kind with
  | .compressed => frame.decodeBlock? limit stored output
  | .plain => if limit < output.size + stored.size then none else some (frame, output ++ stored)
  | .repeated | .finish => none

/-- Hands over the output from `size` on. The buffer starts again at its front when the next block
might not fit behind this one. -/
def handOver (flow : Flow) (frame : EarlyFrame) (size : Nat) :
    Except Expansion (Flow × EarlyFrame) := do
  let total := flow.output.size
  let flow ← flow.handOver (total - size)
  let used := total - frame.history.segment
  if size < total && frame.buffers.output < used + frame.header.blockSize then
    return (flow, { frame with history := frame.history.turn total })
  else return (flow, frame)

/-- Takes a block; answers no frame once the frame has ended. -/
def step (flow : Flow) (frame : EarlyFrame) : Except Expansion (Flow × Option EarlyFrame) := do
  let flow ← flow.await 3
  let header := EarlyBlockHeader.read flow.input flow.position
  let sum := EarlyBlockHeader.checksumAt flow.input flow.position
  let (_, flow) := flow.take 3
  if header.kind = .finish && frame.header.hasChecksum &&
      sum ≠ checksum flow.output frame.start then
    .error .corrupt
  else if header.size = 0 then return (← flow.endPortion, none)
  else
    let flow ← awaitBlock flow frame header.size
    let (stored, flow) := flow.take header.size
    let size := flow.output.size
    match frame.decode? header.kind (frame.history.segment + frame.buffers.output) stored
      flow.output with
    | none => .error .corrupt
    | some (frame, output) =>
      let (flow, frame) ← handOver { flow with output := output } frame size
      return (flow, some frame)

end ClassicZip.Codec.Zstd.EarlyFrame
