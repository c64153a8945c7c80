import ClassicZip.Codec.Zstd.Decoding

/-!
# Blocks add to the output

Whatever a block holds, what was put out before stays in front of its bytes, so the output does not
get shorter.
-/

namespace ClassicZip.Codec.Zstd

-- ---------------------------------------------------------------------------
-- Literals and matches
-- ---------------------------------------------------------------------------

namespace History

@[simp] theorem size_copyFrom (history : History) (size index count : Nat) (output : ByteArray) :
    (history.copyFrom size index count output).size = output.size + count := by
  induction count generalizing index output with
  | zero => rfl
  | succ count ih =>
    rw [copyFrom, ih, ByteArray.size_push]
    omega

theorem size_le_copyLiterals (history : History) (strides : Strides) (source : ByteArray)
    (start stop : Nat) (output : ByteArray) :
    output.size ≤ (history.copyLiterals strides source start stop output).1.size := by
  unfold copyLiterals
  extract_lets copied
  split
  all_goals
    show output.size ≤ (output ++ _).size
    rw [ByteArray.size_append]
    exact Nat.le_add_right _ _

theorem size_le_copyMatch (history : History) (strides : Strides) (output : ByteArray)
    (offset length : Nat) :
    output.size ≤ (history.copyMatch strides output offset length).1.size := by
  unfold copyMatch
  extract_lets start copied ofSegment isSingly
  have hcopied : output.size ≤ copied.size := by
    show output.size ≤ (history.copyFrom _ _ _ _).size
    rw [size_copyFrom]
    exact Nat.le_add_right _ _
  split
  · exact hcopied
  · exact hcopied

theorem size_le_copyMatch_copyLiterals (history : History) (strides : Strides) (source : ByteArray)
    (start stop : Nat) (output : ByteArray) (offset length : Nat) :
    output.size ≤
      ((history.copyLiterals strides source start stop output).2.copyMatch strides
        (history.copyLiterals strides source start stop output).1 offset length).1.size :=
  Nat.le_trans (size_le_copyLiterals ..) (size_le_copyMatch ..)

end History

theorem SequenceState.size_le_run? {rules : SequenceRules} {tables : SequenceTables}
    {literals : LiteralSource} {limit count : Nat} {state last : SequenceState}
    (h : state.run? rules tables literals limit count = some last) :
    state.output.size ≤ last.output.size := by
  induction count generalizing state with
  | zero =>
    obtain rfl := Option.some.inj h
    exact Nat.le_refl _
  | succ count ih =>
    obtain ⟨literalState, offsetState, matchState, bits, offsets, used, history, output⟩ := state
    simp only [run?, Option.ite_none_left_eq_some] at h
    obtain ⟨-, h⟩ := h
    split at h
    · obtain rfl := Option.some.inj h
      exact History.size_le_copyMatch_copyLiterals ..
    · exact Nat.le_trans (History.size_le_copyMatch_copyLiterals ..) (ih h)

theorem FiveSequences.size_le_run? {sequences : FiveSequences} {part : ByteArray}
    {literals : LiteralSource} {limit count : Nat} {state last : State}
    (h : sequences.run? part literals limit count state = some last) :
    state.output.size ≤ last.output.size := by
  induction count generalizing state with
  | zero =>
    obtain rfl := Option.some.inj h
    exact Nat.le_refl _
  | succ count ih =>
    obtain ⟨literalState, offsetState, matchState, bits, offset, previous, index, used, history,
      output⟩ := state
    simp only [run?, Option.ite_none_left_eq_some] at h
    exact Nat.le_trans (History.size_le_copyMatch_copyLiterals ..) (ih h.2)

-- ---------------------------------------------------------------------------
-- Blocks
-- ---------------------------------------------------------------------------

namespace Frame

section
variable {frame next : Frame} {stored output grown : ByteArray}

theorem size_le_decodeBlock? {target : Target}
    (h : frame.decodeBlock? target stored output = some (next, grown)) :
    output.size ≤ grown.size := by
  simp only [decodeBlock?] at h
  split at h
  · cases h
  · split at h
    · cases h
    · split at h
      · cases h
      · split at h
        · cases h
          rw [ByteArray.size_append]
          exact Nat.le_add_right _ _
        · cases h
      · split at h
        · cases h
        · split at h
          · cases h
          · split at h
            · cases h
            · rename_i hrun
              split at h
              · have hsize := SequenceState.size_le_run? hrun
                cases h
                rw [ByteArray.size_append]
                exact Nat.le_trans hsize (Nat.le_add_right _ _)
              · cases h

theorem size_le_decodeBlocks? {limit fuel position stop : Nat} {bytes : ByteArray}
    (h : decodeBlocks? bytes limit fuel position frame output = some (stop, grown)) :
    output.size ≤ grown.size := by
  induction fuel generalizing position frame output with
  | zero => cases h
  | succ fuel ih =>
    simp only [decodeBlocks?] at h
    split at h
    · cases h
    · rename_i decoded between hdecoded
      have hsize : output.size ≤ between.size := by
        split at hdecoded
        · exact size_le_decodeBlock? hdecoded
        · simp only [Option.ite_none_left_eq_some] at hdecoded
          obtain ⟨-, hdecoded⟩ := hdecoded
          split at hdecoded
          all_goals
            obtain ⟨-, rfl⟩ := Prod.mk.inj (Option.some.inj hdecoded)
            simp [repeatByte]
      split at h
      · obtain ⟨-, rfl⟩ := Prod.mk.inj (Option.some.inj h)
        exact hsize
      · exact Nat.le_trans hsize (ih h)

end

end Frame

namespace EarlyFrame

section
variable {frame next : EarlyFrame} {stored output grown : ByteArray} {limit : Nat}

theorem size_le_finish? {literals : LiteralSource} {used : Nat}
    (h : finish? literals output used limit = some grown) : output.size ≤ grown.size := by
  simp only [finish?] at h
  split at h
  · cases h
  · obtain rfl := Option.some.inj h
    rw [ByteArray.size_append]
    exact Nat.le_add_right _ _

theorem size_le_runFive? {part : ByteArray} {literals : LiteralSource}
    (h : frame.runFive? limit part literals output = some (next, grown)) :
    output.size ≤ grown.size := by
  simp only [runFive?] at h
  split at h
  · cases h
  · obtain ⟨_, hfinish, hpair⟩ := Option.map_eq_some_iff.mp h
    obtain ⟨-, rfl⟩ := Prod.mk.inj hpair
    exact size_le_finish? hfinish
  · split at h
    · cases h
    · split at h
      · cases h
      · split at h
        · cases h
        · rename_i hrun
          obtain ⟨_, hfinish, hpair⟩ := Option.map_eq_some_iff.mp h
          obtain ⟨-, rfl⟩ := Prod.mk.inj hpair
          exact Nat.le_trans (FiveSequences.size_le_run? hrun) (size_le_finish? hfinish)

theorem size_le_runCoded? {part : ByteArray} {literals : LiteralSource}
    (h : frame.runCoded? limit part literals output = some (next, grown)) :
    output.size ≤ grown.size := by
  simp only [runCoded?] at h
  split at h
  · cases h
  · obtain ⟨_, hfinish, hpair⟩ := Option.map_eq_some_iff.mp h
    obtain ⟨-, rfl⟩ := Prod.mk.inj hpair
    exact size_le_finish? hfinish
  · simp only [Option.ite_none_left_eq_some] at h
    obtain ⟨-, h⟩ := h
    split at h
    · cases h
    · split at h
      · cases h
      · split at h
        · cases h
        · rename_i hrun
          obtain ⟨_, hfinish, hpair⟩ := Option.map_eq_some_iff.mp h
          obtain ⟨-, rfl⟩ := Prod.mk.inj hpair
          exact Nat.le_trans (SequenceState.size_le_run? hrun) (size_le_finish? hfinish)

theorem size_le_decode? {kind : EarlyBlockKind}
    (h : frame.decode? kind limit stored output = some (next, grown)) :
    output.size ≤ grown.size := by
  cases kind with
  | compressed =>
    simp only [decode?, decodeBlock?, Option.ite_none_left_eq_some] at h
    obtain ⟨-, h⟩ := h
    split at h
    · cases h
    · split at h
      · exact size_le_runFive? h
      · exact size_le_runCoded? h
  | plain =>
    simp only [decode?, Option.ite_none_left_eq_some] at h
    obtain ⟨-, rfl⟩ := Prod.mk.inj (Option.some.inj h.2)
    rw [ByteArray.size_append]
    exact Nat.le_add_right _ _
  | repeated => cases h
  | finish => cases h

end

end EarlyFrame

end ClassicZip.Codec.Zstd
