import ClassicZip.Proofs.Codec.Streams

/-!
# What a decoder hands out

A decoder that goes step by step hands out what its steps put out. Where more comes out than was
wanted, it first finishes its batch: a fault in there keeps the batch back, and what follows is
never looked at. `shows_run` says that a run answers for the stream that is handed out.
-/

namespace ClassicZip.Codec

/-- The expansion tells of the stream what a caller sees of it who wants no more than `limit` bytes
and asks for one more. -/
def Expansion.Shows (limit : Nat) (stream : Stream) : Expansion → Prop
  | .finished output => stream = ⟨output, .clean⟩ ∧ output.size ≤ limit + 1
  | .corrupt => stream.ending = .failed ∧ stream.bytes.size ≤ limit
  | .overflow _ => limit < stream.bytes.size

namespace Decoder

/-- The batch runs into a fault before the output passes `most`. -/
inductive Fails (decoder : Decoder) (most : Nat) : decoder.State → Prop
  | refused {state : decoder.State} (hsize : (decoder.output state).size ≤ most)
      (hstep : decoder.step state = .refused .corrupt) : Fails decoder most state
  | more {state next : decoder.State} (hsize : (decoder.output state).size ≤ most)
      (hstep : decoder.step state = .more next) (hrest : Fails decoder most next) :
      Fails decoder most state

/-- The decoder hands the stream out to a caller who leaves with more than `limit` bytes. Of a
failing decoder's output the caller has not more than that; of what follows when it has left,
nothing is said. -/
inductive Hands (decoder : Decoder) (limit : Nat) : decoder.State → Stream → Prop
  | ended {state : decoder.State} {output : ByteArray}
      (hsize : (decoder.output state).size ≤ limit) (hstep : decoder.step state = .finished output) :
      Hands decoder limit state ⟨output, .clean⟩
  | failed {state : decoder.State} {cause : Refusal} (kept : Nat)
      (hsize : (decoder.output state).size ≤ limit) (hstep : decoder.step state = .refused cause) :
      Hands decoder limit state ⟨(decoder.output state).extract 0 kept, .failed⟩
  | more {state next : decoder.State} {stream : Stream}
      (hsize : (decoder.output state).size ≤ limit) (hstep : decoder.step state = .more next)
      (hrest : Hands decoder limit next stream) : Hands decoder limit state stream
  | withheld {state : decoder.State} {kept : Nat} (hsize : limit < (decoder.output state).size)
      (hbatch : decoder.Fails (decoder.batch limit) (decoder.atHand state)) (hkept : kept ≤ limit) :
      Hands decoder limit state ⟨(decoder.output state).extract 0 kept, .failed⟩
  | beyond {state : decoder.State} (rest : ByteArray) (ending : Ending)
      (hsize : limit < (decoder.output state).size)
      (hbatch : ¬ decoder.Fails (decoder.batch limit) (decoder.atHand state)) :
      Hands decoder limit state ⟨decoder.output state ++ rest, ending⟩

/-- A decoder that ends has put out all of its output before. -/
def EndsWithOutput (decoder : Decoder) : Prop :=
  ∀ state output, decoder.step state = .finished output → output = decoder.output state

section
variable {decoder : Decoder} {state : decoder.State}

theorem settle_of_more {most : Nat} {next : decoder.State} (hsize : (decoder.output state).size ≤ most)
    (hstep : decoder.step state = .more next) :
    decoder.settle most state = decoder.settle most next := by
  rw [settle, if_neg (Nat.not_lt_of_le hsize)]
  split <;> simp_all

theorem settle_cases (decoder : Decoder) (most : Nat) (state : decoder.State) :
    (decoder.Fails most state ∧ decoder.settle most state = .corrupt) ∨
      (¬ decoder.Fails most state ∧ ∃ output, decoder.settle most state = .overflow output) := by
  induction state using settle.induct decoder most with
  | case1 state hpast =>
    refine .inr ⟨?_, _, by rw [settle, if_pos hpast]⟩
    rintro (⟨hsize, -⟩ | ⟨hsize, -, -⟩) <;> omega
  | case2 state hsize output hstep =>
    refine .inr ⟨?_, output, ?_⟩
    · rintro (⟨-, hrefused⟩ | ⟨-, hmore, -⟩) <;> simp_all
    · rw [settle, if_neg hsize]
      split <;> simp_all
  | case3 state hsize hstep =>
    refine .inr ⟨?_, decoder.output state, ?_⟩
    · rintro (⟨-, hrefused⟩ | ⟨-, hmore, -⟩) <;> simp_all
    · rw [settle, if_neg hsize]
      split <;> simp_all
  | case4 state hsize hstep =>
    refine .inl ⟨.refused (Nat.le_of_not_lt hsize) hstep, ?_⟩
    rw [settle, if_neg hsize]
    split <;> simp_all
  | case5 state hsize next hstep ih =>
    rw [settle_of_more (Nat.le_of_not_lt hsize) hstep]
    rcases ih with ⟨hfails, hsettle⟩ | ⟨hsound, hsettle⟩
    · exact .inl ⟨.more (Nat.le_of_not_lt hsize) hstep hfails, hsettle⟩
    · refine .inr ⟨?_, hsettle⟩
      rintro (⟨-, hrefused⟩ | ⟨-, hmore, hrest⟩)
      · rw [hstep] at hrefused
        cases hrefused
      · rw [hstep] at hmore
        cases hmore
        exact hsound hrest

theorem run_of_more {limit : Nat} {next : decoder.State}
    (hsize : (decoder.output state).size ≤ limit) (hstep : decoder.step state = .more next) :
    decoder.run limit state = decoder.run limit next := by
  rw [run, if_neg (Nat.not_lt_of_le hsize)]
  split <;> simp_all

theorem run_of_finished {limit : Nat} {output : ByteArray}
    (hsize : (decoder.output state).size ≤ limit) (hstep : decoder.step state = .finished output) :
    decoder.run limit state = .finished output := by
  rw [run, if_neg (Nat.not_lt_of_le hsize)]
  split <;> simp_all

theorem run_of_refused {limit : Nat} {cause : Refusal}
    (hsize : (decoder.output state).size ≤ limit) (hstep : decoder.step state = .refused cause) :
    decoder.run limit state = .corrupt := by
  rw [run, if_neg (Nat.not_lt_of_le hsize)]
  split <;> simp_all

theorem run_of_lt {limit : Nat} (hsize : limit < (decoder.output state).size) :
    decoder.run limit state = decoder.settle (decoder.batch limit) (decoder.atHand state) := by
  rw [run, if_pos hsize]

theorem shows_run {limit : Nat} {stream : Stream} (hends : decoder.EndsWithOutput)
    (h : decoder.Hands limit state stream) : (decoder.run limit state).Shows limit stream := by
  induction h with
  | ended hsize hstep =>
    rw [run_of_finished hsize hstep]
    exact ⟨rfl, by rw [hends _ _ hstep]; omega⟩
  | failed kept hsize hstep =>
    rw [run_of_refused hsize hstep]
    exact ⟨rfl, by simp only [ByteArray.size_extract]; omega⟩
  | more hsize hstep hrest ih =>
    rw [run_of_more hsize hstep]
    exact ih
  | withheld hsize hbatch hkept =>
    rw [run_of_lt hsize]
    rcases decoder.settle_cases _ _ with ⟨-, hsettle⟩ | ⟨hsound, -⟩
    · rw [hsettle]
      exact ⟨rfl, by simp only [ByteArray.size_extract]; omega⟩
    · exact absurd hbatch hsound
  | beyond rest ending hsize hbatch =>
    rw [run_of_lt hsize]
    rcases decoder.settle_cases _ _ with ⟨hfails, -⟩ | ⟨-, output, hsettle⟩
    · exact absurd hfails hbatch
    · rw [hsettle, Expansion.Shows, ByteArray.size_append]
      omega

theorem exists_hands (decoder : Decoder) (limit : Nat) (state : decoder.State) :
    ∃ stream, decoder.Hands limit state stream := by
  induction state using run.induct decoder limit with
  | case1 state hsize =>
    by_cases hbatch : decoder.Fails (decoder.batch limit) (decoder.atHand state)
    · exact ⟨_, .withheld hsize hbatch (Nat.zero_le limit)⟩
    · exact ⟨_, .beyond ByteArray.empty .clean hsize hbatch⟩
  | case2 state hsize output hstep => exact ⟨_, .ended (Nat.le_of_not_lt hsize) hstep⟩
  | case3 state hsize cause hstep => exact ⟨_, .failed 0 (Nat.le_of_not_lt hsize) hstep⟩
  | case4 state hsize next hstep ih =>
    obtain ⟨stream, hrest⟩ := ih
    exact ⟨stream, .more (Nat.le_of_not_lt hsize) hstep hrest⟩

end

end Decoder

end ClassicZip.Codec
