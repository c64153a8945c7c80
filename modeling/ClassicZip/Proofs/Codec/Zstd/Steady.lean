import ClassicZip.Proofs.Codec.Batches
import ClassicZip.Codec.Zstd.Flow

/-!
# A steady flow

While a zstd decoder goes on, its caller has gathered all that was put out but for what lies in the
portion at hand, and wants more. `Steady` is kept by all that a step of the decoder does to its
flow; where the caller leaves, more came out than it expected.
-/

namespace ClassicZip.Codec

def Expansion.Within (expected : Nat) : Expansion → Prop
  | .finished output => output.size ≤ expected + 1
  | .corrupt => True
  | .overflow output => expected < output.size

namespace Zstd

/-- The computation comes to a value that has the property, or ends the decoding. -/
def Comes {α : Type} (expected : Nat) (holds : α → Prop) : Except Expansion α → Prop
  | .ok value => holds value
  | .error expansion => expansion.Within expected

section
variable {α β : Type} {expected : Nat} {holds : α → Prop} {computation : Except Expansion α}

theorem Comes.bind {next : α → Except Expansion β} {after : β → Prop}
    (h : Comes expected holds computation)
    (hnext : ∀ value, holds value → Comes expected after (next value)) :
    Comes expected after (computation >>= next) := by
  cases computation with
  | error expansion => exact h
  | ok value => exact hnext value h

end

namespace Flow

/-- The flow of `input` stands at `start` or behind it. All bytes that were put out are gathered,
but for those in the portion at hand and `ready` more, and the caller stays. -/
structure Steady (expected ready : Nat) (input : ByteArray) (start : Nat) (flow : Flow) : Prop where
  wanted_eq : flow.gathering.wanted = expected + 1
  roomy : flow.gathering.Roomy
  stays : flow.gathering.isFull = false
  asked_eq : flow.asked = flow.gathering.portion
  room_le : flow.room ≤ flow.asked
  size_eq : flow.output.size = flow.gathering.size + (flow.asked - flow.room) + ready
  input_eq : flow.input = input
  start_le : start ≤ flow.position
  position_le : flow.position ≤ flow.chunkEnd
  chunkEnd_le : flow.chunkEnd ≤ input.size

section
variable {expected ready start : Nat} {input : ByteArray} {flow : Flow}

theorem steady_start (expected : Nat) (input : ByteArray) :
    (Flow.start expected input).Steady expected 0 input 0 where
  wanted_eq := rfl
  roomy := Gathering.roomy_start _ _
  stays := Gathering.isFull_eq_false.mpr (Nat.succ_pos expected)
  asked_eq := rfl
  room_le := Nat.le_refl _
  size_eq := by simp [Flow.start, Gathering.start]
  input_eq := rfl
  start_le := Nat.le_refl _
  position_le := Nat.zero_le _
  chunkEnd_le := Nat.min_le_left _ _

/-- No more than one byte too many was put out and is with the caller or in the portion at hand. -/
theorem Steady.size_le (h : flow.Steady expected 0 input start) : flow.output.size ≤ expected + 1 := by
  have hsize := h.size_eq
  have hportion := flow.gathering.portion_le
  have hstays := Gathering.isFull_eq_false.mp h.stays
  rw [h.wanted_eq] at hportion hstays
  rw [h.asked_eq] at hsize
  omega

theorem Steady.ask (h : flow.Steady expected ready input start) {gathering : Gathering}
    (hwanted : gathering.wanted = expected + 1) (hroomy : gathering.Roomy)
    (hle : gathering.size ≤ flow.output.size)
    (heq : gathering.isFull = false → gathering.size = flow.output.size) :
    Comes expected (·.Steady expected 0 input start) (flow.ask gathering) := by
  unfold Flow.ask
  split
  · rename_i hfull
    have hall : gathering.wanted ≤ gathering.size := of_decide_eq_true hfull
    show expected < flow.output.size
    omega
  · rename_i hstays
    rw [Bool.not_eq_true] at hstays
    exact {
      wanted_eq := hwanted
      roomy := hroomy
      stays := hstays
      asked_eq := rfl
      room_le := Nat.le_refl _
      size_eq := by
        show flow.output.size = gathering.size + (gathering.portion - gathering.portion) + 0
        rw [heq hstays]
        omega
      input_eq := h.input_eq
      start_le := h.start_le
      position_le := h.position_le
      chunkEnd_le := h.chunkEnd_le }

theorem Steady.endPortion (h : flow.Steady expected 0 input start) :
    Comes expected (·.Steady expected 0 input start) flow.endPortion := by
  unfold Flow.endPortion
  split
  · exact h
  · have hsize := h.size_eq
    have hroom := h.room_le
    have hasked := h.asked_eq
    refine h.ask ?_ (h.roomy.after (by omega)) ?_ ?_
    · rw [Gathering.wanted_after, h.wanted_eq]
    · rw [Gathering.size_after]
      omega
    · intro _
      rw [Gathering.size_after]
      omega

theorem position_endPortion {next : Flow} (h : flow.endPortion = .ok next) :
    next.position = flow.position := by
  unfold Flow.endPortion at h
  split at h
  · rw [Except.ok.inj h]
  · unfold Flow.ask at h
    split at h
    · cases h
    · rw [← Except.ok.inj h]

theorem Steady.handOver (h : flow.Steady expected ready input start) :
    Comes expected (·.Steady expected 0 input start) (flow.handOver ready) := by
  have hsize := h.size_eq
  have hroom := h.room_le
  have hasked := h.asked_eq
  unfold Flow.handOver
  split
  · exact {
      wanted_eq := h.wanted_eq
      roomy := h.roomy
      stays := h.stays
      asked_eq := h.asked_eq
      room_le := by
        show flow.room - ready ≤ flow.asked
        omega
      size_eq := by
        show flow.output.size = flow.gathering.size + (flow.asked - (flow.room - ready)) + 0
        omega
      input_eq := h.input_eq
      start_le := h.start_le
      position_le := h.position_le
      chunkEnd_le := h.chunkEnd_le }
  · have hroomy : (flow.gathering.after flow.asked).Roomy := h.roomy.after (by omega)
    have hdrained := Gathering.size_drain_le (ready - flow.room) (ready - flow.room)
      (flow.gathering.after flow.asked)
    rw [Gathering.size_after] at hdrained
    refine h.ask ?_ (hroomy.drain _ _) (by omega) ?_
    · rw [Gathering.wanted_drain, Gathering.wanted_after, h.wanted_eq]
    · intro hstays
      rw [hroomy.size_drain (Nat.le_refl _) hstays, Gathering.size_after]
      omega

theorem Steady.await (h : flow.Steady expected 0 input start) (count : Nat) :
    Comes expected (fun next => next.Steady expected 0 input start ∧
      next.position + count ≤ next.chunkEnd) (flow.await count) := by
  induction flow using Flow.await.induct count with
  | case1 flow hthere =>
    rw [Flow.await, if_pos hthere]
    exact ⟨h, hthere⟩
  | case2 flow hmissing expansion hportion =>
    have hends := h.endPortion
    rw [hportion] at hends
    rw [Flow.await, if_neg hmissing, hportion]
    exact hends
  | case3 flow hmissing next hportion hspent =>
    rw [Flow.await, if_neg hmissing, hportion]
    dsimp only
    rw [if_pos hspent]
    trivial
  | case4 flow hmissing next hportion hmore ih =>
    have hnext := h.endPortion
    rw [hportion] at hnext
    rw [Flow.await, if_neg hmissing, hportion]
    dsimp only
    rw [if_neg hmore]
    have hposition := position_endPortion hportion
    have hflow := h.position_le
    have hchunk := h.chunkEnd_le
    exact ih { hnext with
      input_eq := h.input_eq
      position_le := by
        show next.position ≤ min flow.input.size (flow.chunkEnd + chunkSize)
        rw [h.input_eq]
        omega
      chunkEnd_le := by
        show min flow.input.size (flow.chunkEnd + chunkSize) ≤ input.size
        rw [h.input_eq]
        exact Nat.min_le_left _ _ }

theorem Steady.take (h : flow.Steady expected ready input start) {count : Nat}
    (hcount : flow.position + count ≤ flow.chunkEnd) :
    (flow.take count).2.Steady expected ready input (start + count) :=
  { h with
    start_le := Nat.add_le_add_right h.start_le count
    position_le := hcount }

theorem Steady.grow (h : flow.Steady expected 0 input start) {output : ByteArray}
    (hsize : flow.output.size ≤ output.size) :
    { flow with output := output }.Steady expected (output.size - flow.output.size) input start :=
  { h with
    size_eq := by
      have hold := h.size_eq
      show output.size = flow.gathering.size + (flow.asked - flow.room) +
        (output.size - flow.output.size)
      omega }

theorem Steady.from_le (h : flow.Steady expected ready input start) {first : Nat}
    (hle : first ≤ start) : flow.Steady expected ready input first :=
  { h with start_le := Nat.le_trans hle h.start_le }

end

end Flow

end Zstd

end ClassicZip.Codec
