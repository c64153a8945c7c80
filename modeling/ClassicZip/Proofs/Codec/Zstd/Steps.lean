import ClassicZip.Proofs.Bytes.Concatenation
import ClassicZip.Proofs.Codec.Zstd.Growth
import ClassicZip.Proofs.Codec.Zstd.Steady

/-!
# Steps of a zstd decoder

Every step keeps the flow steady and takes at least a byte off the input, so a decoder that is given
as many steps as there are bytes, and one more, comes to its end.
-/

namespace ClassicZip.Codec.Zstd

-- ---------------------------------------------------------------------------
-- Frames of the early versions
-- ---------------------------------------------------------------------------

theorem HeaderForm.size_pos (form : HeaderForm) : 0 < form.size := by
  rw [size]
  omega

theorem EarlyVersion.headerSize_pos (version : EarlyVersion) (form : Nat) :
    0 < version.headerSize form := by
  cases version with
  | four | five => exact Nat.succ_pos 4
  | six =>
    rw [headerSize]
    omega
  | seven => exact (HeaderForm.ofByte form).size_pos

namespace EarlyFrame

section
variable {expected ready start : Nat} {input : ByteArray} {flow : Flow}

theorem comes_awaitBlock (h : flow.Steady expected 0 input start) (frame : EarlyFrame) (count : Nat) :
    Comes expected (fun next => next.Steady expected 0 input start ∧
      next.position + count ≤ next.chunkEnd) (awaitBlock flow frame count) := by
  refine (h.await 1).bind fun next hnext => ?_
  split
  · trivial
  · exact hnext.1.await count

theorem comes_ofFlow (h : flow.Steady expected 0 input start) (previous : Option EarlyBuffers)
    (version : EarlyVersion) :
    Comes expected (·.1.Steady expected 0 input (start + 1)) (ofFlow flow previous version) := by
  refine (h.await _).bind fun next ⟨hnext, hthere⟩ => ?_
  split
  · trivial
  · exact (hnext.take hthere).from_le (Nat.add_le_add_left (version.headerSize_pos _) start)

theorem comes_handOver {size : Nat} (h : flow.Steady expected (flow.output.size - size) input start)
    (frame : EarlyFrame) :
    Comes expected (·.1.Steady expected 0 input start) (handOver flow frame size) := by
  refine h.handOver.bind fun next hnext => ?_
  extract_lets used
  split
  · exact hnext
  · exact hnext

theorem comes_step (h : flow.Steady expected 0 input start) (frame : EarlyFrame) :
    Comes expected (·.1.Steady expected 0 input (start + 1)) (step flow frame) := by
  refine (h.await 3).bind fun next ⟨hnext, hthere⟩ => ?_
  have htaken := (hnext.take hthere).from_le (Nat.add_le_add_left (by decide : 1 ≤ 3) start)
  dsimp only at htaken ⊢
  split
  · trivial
  · split
    · exact htaken.endPortion.bind fun last hlast => hlast
    · refine (comes_awaitBlock htaken frame _).bind fun last ⟨hlast, hblock⟩ => ?_
      split
      · trivial
      · rename_i grown output hdecode
        have hgrown := (hlast.take hblock).grow (size_le_decode? hdecode)
        exact (comes_handOver (hgrown.from_le (Nat.le_add_right _ _)) grown).bind
          fun handed hhanded => hhanded

end

end EarlyFrame

-- ---------------------------------------------------------------------------
-- Whole frames
-- ---------------------------------------------------------------------------

theorem le_of_blocksEnd? {bytes : ByteArray} {chunkEnd fuel position stop : Nat}
    (h : blocksEnd? bytes chunkEnd fuel position = some stop) : position ≤ stop := by
  induction fuel generalizing position with
  | zero => cases h
  | succ fuel ih =>
    simp only [blocksEnd?, Option.ite_none_left_eq_some] at h
    obtain ⟨-, h⟩ := h
    split at h
    · obtain rfl := Option.some.inj h
      omega
    · have hnext := ih h
      omega

namespace Expanding

section
variable {expected ready start : Nat} {input : ByteArray} {flow : Flow}

theorem le_of_wholeEnd? {header : FrameHeader} {blocksStart frameEnd : Nat}
    (h : wholeEnd? flow header blocksStart = some frameEnd) :
    blocksStart ≤ frameEnd ∧ frameEnd ≤ flow.chunkEnd := by
  simp only [wholeEnd?, Option.ite_none_left_eq_some, Option.filter_eq_some_iff,
    Option.map_eq_some_iff, decide_eq_true_eq] at h
  obtain ⟨-, ⟨stop, hstop, rfl⟩, hend⟩ := h
  exact ⟨Nat.le_trans (le_of_blocksEnd? hstop) (Nat.le_add_right _ _), hend⟩

theorem steady_decodeWhole? (h : flow.Steady expected 0 input start) {header : FrameHeader}
    {blocksStart frameEnd : Nat} (hend : frameEnd ≤ flow.chunkEnd)
    {next : Flow} (hdecode : decodeWhole? flow header blocksStart frameEnd = some next) :
    next.Steady expected (next.output.size - flow.output.size) input frameEnd := by
  simp only [decodeWhole?] at hdecode
  split at hdecode
  · cases hdecode
  · rename_i position output hblocks
    split at hdecode
    · obtain rfl := Option.some.inj hdecode
      exact { h.grow (Frame.size_le_decodeBlocks? hblocks) with
        start_le := Nat.le_refl _
        position_le := hend }
    · cases hdecode

-- ---------------------------------------------------------------------------
-- Steps
-- ---------------------------------------------------------------------------

/-- The flow is steady, and inside a plain block something is to come. -/
structure Steady (expected : Nat) (input : ByteArray) (start : Nat) (state : Expanding) : Prop where
  flow : state.flow.Steady expected 0 input start
  count_pos : ∀ frame last count, state.phase = .plain frame last count → 0 < count

theorem comes_endFrame (h : flow.Steady expected 0 input start) (buffers : Buffers) :
    Comes expected (Steady expected input start) (endFrame flow buffers) :=
  h.endPortion.bind fun _ hnext => ⟨hnext, nofun⟩

theorem comes_afterLast (h : flow.Steady expected 0 input start) (buffers : Buffers)
    (frame : Frame) : Comes expected (Steady expected input start) (afterLast flow buffers frame) := by
  unfold afterLast
  split
  · exact ⟨h, nofun⟩
  · exact comes_endFrame h buffers

theorem comes_handOver {size : Nat} (h : flow.Steady expected (flow.output.size - size) input start)
    (buffers : Buffers) (frame : Frame) :
    Comes expected (·.1.Steady expected 0 input start) (handOver flow buffers frame size) := by
  refine h.handOver.bind fun next hnext => ?_
  extract_lets isShort used
  split
  · exact hnext
  · exact hnext

theorem comes_afterBlock {size : Nat}
    (h : flow.Steady expected (flow.output.size - size) input start) (buffers : Buffers)
    (frame : Frame) (last : Bool) :
    Comes expected (Steady expected input start) (afterBlock flow buffers frame last size) := by
  unfold afterBlock
  split
  · trivial
  · refine (comes_handOver h buffers frame).bind fun ⟨next, frame⟩ hnext => ?_
    dsimp only
    split
    · exact comes_afterLast hnext buffers frame
    · exact ⟨hnext, nofun⟩

theorem comes_stepSkippable (h : flow.Steady expected 0 input start) (buffers : Buffers) :
    Comes expected (Steady expected input (start + 1)) (stepSkippable flow buffers) := by
  refine (h.await 8).bind fun header ⟨hheader, hthere⟩ => ?_
  refine ((hheader.take hthere).await _).bind fun next ⟨hnext, hrest⟩ => ?_
  exact ⟨(hnext.take hrest).from_le (by omega), nofun⟩

theorem comes_stepHeader (h : flow.Steady expected 0 input start) (buffers : Buffers) :
    Comes expected (Steady expected input (start + 1)) (stepHeader flow buffers) := by
  unfold stepHeader
  extract_lets chunkEnd
  refine (h.await 5).bind fun near hnear => ?_
  extract_lets form
  refine (hnear.1.await form.size).bind fun next ⟨hnext, hthere⟩ => ?_
  have hform := form.size_pos
  split
  · trivial
  · rename_i header hheader
    extract_lets blocksStart whole size window fitted
    have hwhole : ∀ frameEnd, whole = some frameEnd →
        blocksStart ≤ frameEnd ∧ frameEnd ≤ next.chunkEnd := by
      intro frameEnd hsome
      unfold whole at hsome
      split at hsome
      · exact le_of_wholeEnd? hsome
      · cases hsome
    clear_value whole
    cases whole with
    | some frameEnd =>
      obtain ⟨hfrom, hto⟩ := hwhole frameEnd rfl
      have hstart := hnext.start_le
      dsimp only
      split
      · trivial
      · rename_i decoded hdecode
        refine (steady_decodeWhole? hnext hto hdecode).handOver.bind fun handed hhanded => ?_
        exact comes_endFrame (hhanded.from_le (by omega)) buffers
    | none =>
      dsimp only
      split
      · trivial
      · exact ⟨(hnext.take hthere).from_le (Nat.add_le_add_left hform start), nofun⟩

theorem comes_stepBoundary (h : flow.Steady expected 0 input start) (buffers : Buffers)
    (mayEnd : Bool) :
    Comes expected (Steady expected input (start + 1)) (stepBoundary flow buffers mayEnd) := by
  unfold stepBoundary
  split
  · cases mayEnd with
    | true => exact h.size_le
    | false => trivial
  · refine (h.await 1).bind fun next ⟨hnext, _⟩ => ?_
    refine (hnext.await 5).bind fun seen _ => ?_
    extract_lets magic
    split
    · exact comes_stepHeader hnext buffers
    · split
      · exact comes_stepSkippable hnext buffers
      · split
        · trivial
        · split
          · trivial
          · rename_i version hversion
            exact (EarlyFrame.comes_ofFlow hnext buffers.early version).bind
              fun ⟨last, frame⟩ hlast => ⟨hlast, nofun⟩

theorem comes_stepBlock (h : flow.Steady expected 0 input start) (buffers : Buffers)
    (frame : Frame) :
    Comes expected (Steady expected input (start + 1)) (stepBlock flow buffers frame) := by
  refine (h.await 3).bind fun next ⟨hnext, hthere⟩ => ?_
  have htaken := (hnext.take hthere).from_le (Nat.add_le_add_left (by decide : 1 ≤ 3) start)
  extract_lets header
  dsimp only
  split
  · trivial
  · split
    · split
      · exact comes_afterLast htaken buffers frame
      · exact ⟨htaken, nofun⟩
    · rename_i hstored
      split
      · rename_i hkind
        refine ⟨htaken, ?_⟩
        rintro _ _ count ⟨⟩
        rw [BlockHeader.storedSize, if_neg (by omega)] at hstored
        exact Nat.pos_of_ne_zero hstored
      · refine (htaken.await header.storedSize).bind fun block ⟨hblock, hwhole⟩ => ?_
        have hstart := (hblock.take hwhole).from_le (Nat.le_add_right _ _)
        split
        · trivial
        · rename_i grown output hdecoded
          have hsize : block.output.size ≤ output.size := by
            split at hdecoded
            · exact Frame.size_le_decodeBlock? hdecoded
            · simp only [Option.ite_none_left_eq_some] at hdecoded
              obtain ⟨-, rfl⟩ := Prod.mk.inj (Option.some.inj hdecoded.2)
              rw [Frame.repeatByte, ByteArray.size_append]
              exact Nat.le_add_right _ _
          exact comes_afterBlock (hstart.grow hsize) buffers grown header.last

theorem comes_stepPlain (h : flow.Steady expected 0 input start) (buffers : Buffers)
    (frame : Frame) (last : Bool) {count : Nat} (hcount : 0 < count) :
    Comes expected (Steady expected input (start + 1))
      (stepPlain flow buffers frame last count) := by
  refine (h.await 1).bind fun next ⟨hnext, hthere⟩ => ?_
  extract_lets size
  have hpiece : next.position + min count (next.chunkEnd - next.position) ≤ next.chunkEnd := by
    omega
  have htaken := (hnext.take hpiece).from_le (by omega : start + 1 ≤ _)
  have hgrown (piece : ByteArray) := htaken.grow
    (show next.output.size ≤ (next.output ++ piece).size by simp)
  dsimp only
  split
  · trivial
  · split
    · exact comes_afterBlock (hgrown _) buffers frame last
    · rename_i hsome
      refine (comes_handOver (hgrown _) buffers frame).bind fun ⟨handed, frame⟩ hhanded => ?_
      refine ⟨hhanded, ?_⟩
      rintro _ _ count ⟨⟩
      have hpart := Bytes.size_slice_le next.input next.position
        (min count (next.chunkEnd - next.position))
      exact Nat.sub_pos_of_lt
        (Nat.lt_of_le_of_ne (Nat.le_trans hpart (Nat.min_le_left _ _)) hsome)

theorem comes_stepChecksum (h : flow.Steady expected 0 input start) (buffers : Buffers)
    (frame : Frame) :
    Comes expected (Steady expected input (start + 1)) (stepChecksum flow buffers frame) := by
  refine (h.await 4).bind fun next ⟨hnext, hthere⟩ => ?_
  split
  · exact comes_endFrame ((hnext.take hthere).from_le (by omega)) buffers
  · trivial

theorem comes_stepEarly (h : flow.Steady expected 0 input start) (buffers : Buffers)
    (frame : EarlyFrame) :
    Comes expected (Steady expected input (start + 1)) (stepEarly flow buffers frame) := by
  refine (EarlyFrame.comes_step h frame).bind fun ⟨next, frame?⟩ hnext => ?_
  cases frame? with
  | none => exact ⟨hnext, nofun⟩
  | some frame => exact ⟨hnext, nofun⟩

/-- A step takes at least a byte off the input. -/
theorem Steady.step {state : Expanding} (h : state.Steady expected input start) :
    Comes expected (Steady expected input (start + 1)) state.step := by
  obtain ⟨flow, buffers, phase⟩ := state
  cases phase with
  | boundary mayEnd => exact comes_stepBoundary h.flow buffers mayEnd
  | block frame => exact comes_stepBlock h.flow buffers frame
  | plain frame last count =>
    exact comes_stepPlain h.flow buffers frame last (h.count_pos frame last count rfl)
  | checksum frame => exact comes_stepChecksum h.flow buffers frame
  | early frame => exact comes_stepEarly h.flow buffers frame

end

-- ---------------------------------------------------------------------------
-- Runs
-- ---------------------------------------------------------------------------

/-- The decoder hands the stream out to a caller who leaves with more than `expected` bytes. Of a
failing decoder's output the caller has not more than that; of what follows when it has left,
nothing is said. -/
inductive Hands (expected : Nat) : Expanding → Stream → Prop
  | ended {state : Expanding} {output : ByteArray} (hstep : state.step = .error (.finished output)) :
      Hands expected state ⟨output, .clean⟩
  | failed {state : Expanding} {kept : Nat} (hstep : state.step = .error .corrupt)
      (hkept : kept ≤ expected) :
      Hands expected state ⟨state.flow.output.extract 0 kept, .failed⟩
  | beyond {state : Expanding} {output : ByteArray} (rest : ByteArray) (ending : Ending)
      (hstep : state.step = .error (.overflow output)) :
      Hands expected state ⟨output ++ rest, ending⟩
  | more {state next : Expanding} {stream : Stream} (hstep : state.step = .ok next)
      (hrest : Hands expected next stream) : Hands expected state stream

section
variable {expected start : Nat} {input : ByteArray} {state next : Expanding}

theorem Steady.start_le (h : state.Steady expected input start) : start ≤ input.size :=
  Nat.le_trans h.flow.start_le (Nat.le_trans h.flow.position_le h.flow.chunkEnd_le)

theorem Steady.of_step (h : state.Steady expected input start) (hstep : state.step = .ok next) :
    next.Steady expected input (start + 1) := by
  have hcomes := h.step
  rwa [hstep] at hcomes

theorem Steady.within (h : state.Steady expected input start) {expansion : Expansion}
    (hstep : state.step = .error expansion) : expansion.Within expected := by
  have hcomes := h.step
  rwa [hstep] at hcomes

/-- A run with a step for each byte of the input, and one more, answers for the stream that is
handed out. -/
theorem shows_run {stream : Stream} (hhands : Hands expected state stream) {fuel : Nat}
    (h : state.Steady expected input start) (hfuel : input.size ≤ start + fuel) :
    (run (fuel + 1) state).Shows expected stream := by
  induction hhands generalizing fuel start with
  | ended hstep =>
    rw [run, hstep]
    exact ⟨rfl, h.within hstep⟩
  | failed hstep hkept =>
    rw [run, hstep]
    refine ⟨rfl, ?_⟩
    rw [ByteArray.size_extract]
    omega
  | @beyond state output rest ending hstep =>
    have hmore : expected < output.size := h.within hstep
    rw [run, hstep, Expansion.Shows, ByteArray.size_append]
    omega
  | more hstep hrest ih =>
    have hnext := h.of_step hstep
    have hstart := hnext.start_le
    obtain ⟨fuel, rfl⟩ := Nat.exists_eq_add_of_le' (by omega : 1 ≤ fuel)
    rw [run, hstep]
    exact ih hnext (by omega)

end

theorem exists_hands {expected start : Nat} {input : ByteArray} {state : Expanding}
    (h : state.Steady expected input start) : ∃ stream, Hands expected state stream := by
  cases hstep : state.step with
  | ok next =>
    have hnext := h.of_step hstep
    have hstart := hnext.start_le
    obtain ⟨stream, hrest⟩ := exists_hands hnext
    exact ⟨stream, .more hstep hrest⟩
  | error expansion =>
    cases expansion with
    | finished output => exact ⟨_, .ended hstep⟩
    | corrupt => exact ⟨_, .failed hstep (Nat.zero_le expected)⟩
    | overflow output => exact ⟨_, .beyond ByteArray.empty .clean hstep⟩
termination_by input.size - start

end Expanding

theorem steady_start (expected : Nat) (stored : ByteArray) :
    Expanding.Steady expected stored 0 ⟨.start expected stored, .none, .boundary false⟩ where
  flow := Flow.steady_start expected stored
  count_pos := nofun

end ClassicZip.Codec.Zstd
