import ClassicZip.Codec.Bits

/-!
# Decoders as streams

A decoder goes step by step. Each step adds to the output, or ends the stream, or refuses it. A
step takes something off the input or off the pending work, in this order of weight, so every
stream ends.

A caller that wants at most so many bytes stops once one more is out. The decoder does not notice
this at once: it finishes its batch with the input that it has at hand, so a fault in there still
counts, and what follows does not matter.
-/

namespace ClassicZip.Codec

inductive Step (σ : Type) where
  | more (next : σ)
  | finished (output : ByteArray)
  | refused (cause : Refusal)

structure Decoder where
  State : Type
  start : ByteArray → State
  /-- All bytes decoded so far. -/
  output : State → ByteArray
  /-- The input that is left, and the work that the input so far has left to do. -/
  left : State → Nat × Nat
  step : State → Step State
  left_step : ∀ state next, step state = .more next →
    Prod.Lex (· < ·) (· < ·) (left next) (left state)
  /-- The most output of a batch in which more than `limit` bytes come out. -/
  batch : (limit : Nat) → Nat
  /-- The state without the input that has not been handed over yet. -/
  atHand : State → State

/-- What comes of a stream when no more than a given number of bytes is wanted. -/
inductive Expansion where
  | finished (output : ByteArray)
  | corrupt
  /-- More bytes came out than were wanted, these first. -/
  | overflow (output : ByteArray)

namespace Decoder

/-- Goes on until the output passes `most`, where more came out than was wanted. -/
def settle (decoder : Decoder) (most : Nat) (state : decoder.State) : Expansion :=
  if most < (decoder.output state).size then .overflow (decoder.output state)
  else match _h : decoder.step state with
    | .finished output => .overflow output
    | .refused .short => .overflow (decoder.output state)
    | .refused .corrupt => .corrupt
    | .more next => decoder.settle most next
termination_by decoder.left state
decreasing_by exact decoder.left_step _ _ _h

def run (decoder : Decoder) (limit : Nat) (state : decoder.State) : Expansion :=
  if limit < (decoder.output state).size then
    decoder.settle (decoder.batch limit) (decoder.atHand state)
  else match _h : decoder.step state with
    | .finished output => .finished output
    | .refused _ => .corrupt
    | .more next => decoder.run limit next
termination_by decoder.left state
decreasing_by exact decoder.left_step _ _ _h

def expand (decoder : Decoder) (limit : Nat) (stored : ByteArray) : Expansion :=
  decoder.run limit (decoder.start stored)

end Decoder

end ClassicZip.Codec
