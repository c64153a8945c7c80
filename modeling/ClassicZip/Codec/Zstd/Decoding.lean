import ClassicZip.Codec.Zstd.Block
import ClassicZip.Codec.Zstd.Early.Decoding

/-!
# Decoding zstd streams

A stream is one or more frames; skippable frames hold no data. It must end behind a frame. A frame
that lies in the chunk at hand, and whose declared size fits the portion at hand, is decoded right
into the portion. Any other frame goes block by block through a buffer, which is kept for later
frames. Frames that need a dictionary are refused, and so are windows above 128 MiB where a buffer
is needed.
-/

namespace ClassicZip.Codec.Zstd

def maxWindowSize : Nat := 2 ^ 27 + 1

def minWindowSize : Nat := 1024

/-- The sizes of the buffers for input and output, for how many frames in a row they have been far
too large, and the buffers of the latest frame of an early version. -/
structure Buffers where
  input : Nat
  output : Nat
  oversized : Nat
  early : Option EarlyBuffers

namespace Buffers

def none : Buffers := ⟨0, 0, 0, .none⟩

/-- Buffers of at least these sizes. They are renewed when one is too small, or when they have been
three times too large for 128 frames. -/
def fit (buffers : Buffers) (input output : Nat) : Buffers :=
  let oversized :=
    if 3 * (input + output) ≤ buffers.input + buffers.output then buffers.oversized + 1 else 0
  if buffers.input < input || buffers.output < output || 128 ≤ oversized then
    { buffers with input := input, output := output, oversized := oversized }
  else { buffers with oversized := oversized }

def fitFrame (buffers : Buffers) (window blockSize : Nat) (content : Option Nat) : Buffers :=
  let needed := window + 2 * min window maxBlockSize + 2 * spareSize
  buffers.fit (max blockSize 4) (match content with
    | .none => needed
    | .some content => min content needed)

end Buffers

inductive Phase
  /-- Between frames; the stream may end once a frame is done. -/
  | boundary (mayEnd : Bool)
  | block (frame : Frame)
  /-- Inside a plain block, with `count` bytes to come. -/
  | plain (frame : Frame) (last : Bool) (count : Nat)
  | checksum (frame : Frame)
  /-- In front of a block of an early version. -/
  | early (frame : EarlyFrame)

structure Expanding where
  flow : Flow
  buffers : Buffers
  phase : Phase

namespace Expanding

def endFrame (flow : Flow) (buffers : Buffers) : Except Expansion Expanding := do
  return ⟨← flow.endPortion, buffers, .boundary true⟩

def afterLast (flow : Flow) (buffers : Buffers) (frame : Frame) : Except Expansion Expanding :=
  if frame.header.hasChecksum then .ok ⟨flow, buffers, .checksum frame⟩
  else endFrame flow buffers

def isSum (input : ByteArray) (position : Nat) (output : ByteArray) (start : Nat) : Bool :=
  (Xxh64.hash output start).toUInt32 == Bytes.u32At input position

/-- Hands over the output from `size` on. The buffer starts again at its front when the next block
might not fit behind this one. -/
def handOver (flow : Flow) (buffers : Buffers) (frame : Frame) (size : Nat) :
    Except Expansion (Flow × Frame) := do
  let total := flow.output.size
  let flow ← flow.handOver (total - size)
  let isShort := frame.header.contentSize.all (buffers.output < ·)
  let used := total - frame.history.segment
  if size < total && isShort && buffers.output < used + frame.header.blockSize then
    return (flow, { frame with history := frame.history.turn total })
  else return (flow, frame)

def afterBlock (flow : Flow) (buffers : Buffers) (frame : Frame) (last : Bool) (size : Nat) :
    Except Expansion Expanding := do
  if last && !frame.mayEndAt flow.output.size then .error .corrupt
  else
    let (flow, frame) ← handOver flow buffers frame size
    if last then afterLast flow buffers frame else return ⟨flow, buffers, .block frame⟩

def stepSkippable (flow : Flow) (buffers : Buffers) : Except Expansion Expanding := do
  let flow ← flow.await 8
  let size := littleEndian flow.input (flow.position + 4) 4
  let (_, flow) := flow.take 8
  let flow ← flow.await size
  let (_, flow) := flow.take size
  return ⟨flow, buffers.fitFrame minWindowSize 0 (some size), .boundary true⟩

/-- A frame that is decoded right into the portion at hand, and where it ends. -/
def decodeWhole? (flow : Flow) (header : FrameHeader) (blocksStart frameEnd : Nat) :
    Option Flow :=
  let start := flow.output.size
  let blocks := Frame.decodeBlocks? flow.input (start + flow.room) flow.input.size blocksStart
    (.ofHeader header start) flow.output
  match blocks with
  | none => none
  | some (position, output) =>
    if header.contentSize.all (start + · == output.size) &&
        (!header.hasChecksum || isSum flow.input position output start) then
      some { flow with position := frameEnd, output := output }
    else none

def wholeEnd? (flow : Flow) (header : FrameHeader) (blocksStart : Nat) : Option Nat :=
  if header.contentSize.all (flow.room < ·) then none
  else
    let blocksEnd := blocksEnd? flow.input flow.chunkEnd flow.input.size blocksStart
    let frameEnd := blocksEnd.map (· + if header.hasChecksum then 4 else 0)
    frameEnd.filter (· ≤ flow.chunkEnd)

def stepHeader (flow : Flow) (buffers : Buffers) : Except Expansion Expanding := do
  let chunkEnd := flow.chunkEnd
  let flow ← flow.await 5
  let form := HeaderForm.ofByte (Bytes.byteAt flow.input (flow.position + 4)).toNat
  let flow ← flow.await form.size
  match FrameHeader.at? flow.input flow.position with
  | none => .error .corrupt
  | some header =>
    let blocksStart := flow.position + form.size
    let whole := if flow.chunkEnd = chunkEnd then wholeEnd? flow header blocksStart else none
    match whole with
    | some frameEnd =>
      let size := flow.output.size
      match decodeWhole? flow header blocksStart frameEnd with
      | none => .error .corrupt
      | some flow => endFrame (← flow.handOver (flow.output.size - size)) buffers
    | none =>
      let window := max header.window minWindowSize
      if maxWindowSize < window then .error .corrupt
      else
        let (_, flow) := flow.take form.size
        let buffers := buffers.fitFrame window header.blockSize header.contentSize
        return ⟨flow, buffers, .block (.ofHeader header flow.output.size)⟩

def stepBoundary (flow : Flow) (buffers : Buffers) (mayEnd : Bool) :
    Except Expansion Expanding := do
  if flow.left = 0 then .error (if mayEnd then .finished flow.output else .corrupt)
  else
    let flow ← flow.await 1
    let magic := littleEndian (← flow.await 5).input flow.position 4
    if magic = frameMagic then stepHeader flow buffers
    else if magic / 16 = 0x184D2A5 then stepSkippable flow buffers
    else if flow.chunkEnd < flow.position + 5 then .error .corrupt
    else match EarlyVersion.ofMagic? magic with
      | none => .error .corrupt
      | some version =>
        let (flow, frame) ← EarlyFrame.ofFlow flow buffers.early version
        return ⟨flow, { buffers with early := some frame.buffers }, .early frame⟩

def stepEarly (flow : Flow) (buffers : Buffers) (frame : EarlyFrame) :
    Except Expansion Expanding := do
  match ← frame.step flow with
  | (flow, some frame) => return ⟨flow, buffers, .early frame⟩
  | (flow, none) => return ⟨flow, buffers, .boundary true⟩

/-- A block header, and its block unless it is a plain one. An empty block is passed over. -/
def stepBlock (flow : Flow) (buffers : Buffers) (frame : Frame) : Except Expansion Expanding := do
  let flow ← flow.await 3
  let header := BlockHeader.read flow.input flow.position
  let (_, flow) := flow.take 3
  if header.isReserved || frame.header.blockSize < header.storedSize then .error .corrupt
  else if header.storedSize = 0 then
    if header.last then afterLast flow buffers frame else return ⟨flow, buffers, .block frame⟩
  else if header.kind = 0 then return ⟨flow, buffers, .plain frame header.last header.size⟩
  else
    let flow ← flow.await header.storedSize
    let (stored, flow) := flow.take header.storedSize
    let size := flow.output.size
    let room := buffers.output - (size - frame.history.segment)
    let decoded :=
      if header.kind = 2 then frame.decodeBlock? (.buffer room) stored flow.output
      else if min room frame.header.blockSize < header.size then none
      else some (frame, Frame.repeatByte (Bytes.byteAt stored 0) header.size flow.output)
    match decoded with
    | none => .error .corrupt
    | some (frame, output) =>
      afterBlock { flow with output := output } buffers frame header.last size

/-- As much of a plain block as the chunk at hand has. -/
def stepPlain (flow : Flow) (buffers : Buffers) (frame : Frame) (last : Bool) (count : Nat) :
    Except Expansion Expanding := do
  let flow ← flow.await 1
  let size := flow.output.size
  let (piece, flow) := flow.take (min count (flow.chunkEnd - flow.position))
  if buffers.output - (size - frame.history.segment) < piece.size then .error .corrupt
  else
    let flow := { flow with output := flow.output ++ piece }
    if piece.size = count then afterBlock flow buffers frame last size
    else
      let (flow, frame) ← handOver flow buffers frame size
      return ⟨flow, buffers, .plain frame last (count - piece.size)⟩

def stepChecksum (flow : Flow) (buffers : Buffers) (frame : Frame) :
    Except Expansion Expanding := do
  let flow ← flow.await 4
  if isSum flow.input flow.position flow.output frame.start then
    endFrame (flow.take 4).2 buffers
  else .error .corrupt

def step : Expanding → Except Expansion Expanding
  | ⟨flow, buffers, .boundary mayEnd⟩ => stepBoundary flow buffers mayEnd
  | ⟨flow, buffers, .block frame⟩ => stepBlock flow buffers frame
  | ⟨flow, buffers, .plain frame last count⟩ => stepPlain flow buffers frame last count
  | ⟨flow, buffers, .checksum frame⟩ => stepChecksum flow buffers frame
  | ⟨flow, buffers, .early frame⟩ => stepEarly flow buffers frame

/-- Steps until the stream ends; `fuel` bounds them, since each step takes at least a byte. -/
def run : Nat → Expanding → Expansion
  | 0, _ => .corrupt
  | fuel + 1, state =>
    match state.step with
    | .error expansion => expansion
    | .ok next => run fuel next

end Expanding

def expand (expected : Nat) (stored : ByteArray) : Expansion :=
  Expanding.run (stored.size + 1) ⟨.start expected stored, .none, .boundary false⟩

end ClassicZip.Codec.Zstd
