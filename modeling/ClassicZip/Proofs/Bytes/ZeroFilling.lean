import Mathlib.Logic.Function.Iterate
import ClassicZip.Proofs.Bytes.Overwriting

/-!
# Filling with zeros in rounds

Zeros are written a block at a time, through a position that moves behind each block and may run
past the end of the image. `Filling.iterate_round` is the state after any number of rounds, and
`zeroFill_exact` what is there after the last.
-/

namespace ClassicZip.Bytes

/-- An image that is being filled: the next zeros go to `position`, and `remaining` are missing. -/
structure Filling where
  bytes : ByteArray
  position : Nat
  remaining : Nat

namespace Filling

def round (filling : Filling) : Filling :=
  let count := min filling.remaining zeroBlock.size
  { bytes := overwrite filling.bytes filling.position (slice zeroBlock 0 count)
    position := filling.position + count
    remaining := filling.remaining - count }

/-- The state with `done` of the `count` zeros from `offset` on written. -/
def partway (bytes : ByteArray) (offset count done : Nat) : Filling where
  bytes := bytes.extract 0 offset ++ zeros done ++ bytes.extract (offset + done) bytes.size
  position := offset + done
  remaining := count - done

section
variable {bytes : ByteArray} {offset count done : Nat}

theorem partway_zero (h : offset ≤ bytes.size) :
    partway bytes offset count 0 = ⟨bytes, offset, count⟩ := by
  simp [partway, h]

theorem round_partway (h : offset ≤ bytes.size) :
    (partway bytes offset count done).round =
      partway bytes offset count (done + min (count - done) zeroBlock.size) := by
  obtain ⟨next, hnext⟩ : ∃ next, next = min (count - done) zeroBlock.size := ⟨_, rfl⟩
  have hblock : slice zeroBlock 0 next = zeros next := by
    rw [zeroBlock, size_zeros] at hnext
    exact slice_zeros (by omega)
  have hfront : (bytes.extract 0 offset ++ zeros done).size = offset + done := by
    simp [h]
  have hzeros : bytes.extract 0 offset ++ zeros done ++ zeros next =
      bytes.extract 0 offset ++ zeros (done + next) := by
    rw [ByteArray.append_assoc, zeros_append]
  have hbytes : overwrite (partway bytes offset count done).bytes (offset + done) (zeros next) =
      (partway bytes offset count (done + next)).bytes := by
    simp only [partway]
    rw [← hfront, overwrite_append, hfront, size_zeros, extract_extract_size, hzeros, Nat.add_assoc]
  rw [← hnext]
  show Filling.mk (overwrite (partway bytes offset count done).bytes (offset + done)
      (slice zeroBlock 0 (min (count - done) zeroBlock.size)))
    (offset + done + min (count - done) zeroBlock.size)
    (count - done - min (count - done) zeroBlock.size) = _
  rw [← hnext, hblock, hbytes]
  simp only [partway, Nat.add_assoc, Nat.sub_sub]

theorem iterate_round (h : offset ≤ bytes.size) (rounds : Nat) :
    Nat.iterate round rounds ⟨bytes, offset, count⟩ =
      partway bytes offset count (min count (rounds * zeroBlock.size)) := by
  induction rounds with
  | zero => rw [Function.iterate_zero_apply, Nat.zero_mul, Nat.min_zero, partway_zero h]
  | succ rounds ih =>
    rw [Function.iterate_succ_apply', ih, round_partway h, Nat.succ_mul]
    congr 1
    omega

end

end Filling

/-- Filling with zeros puts exactly its zeros into the image, which grows only if they reach past
its end. It is done in as many rounds as there are blocks, the last of which may be shorter. -/
theorem zeroFill_exact {bytes : ByteArray} {offset : Nat} (h : offset ≤ bytes.size) (count : Nat) :
    (zeroFill bytes offset count).size = max bytes.size (offset + count) ∧
    (∀ index, index < offset →
      byteAt (zeroFill bytes offset count) index = byteAt bytes index) ∧
    (∀ index, offset ≤ index → index < offset + count →
      byteAt (zeroFill bytes offset count) index = 0) ∧
    (∀ index, offset + count ≤ index →
      byteAt (zeroFill bytes offset count) index = byteAt bytes index) ∧
    (∀ rounds, (Nat.iterate Filling.round rounds ⟨bytes, offset, count⟩).remaining = 0 ↔
      (count + 65535) / 65536 ≤ rounds) ∧
    Nat.iterate Filling.round ((count + 65535) / 65536) ⟨bytes, offset, count⟩ =
      ⟨zeroFill bytes offset count, offset + count, 0⟩ := by
  have hblock : zeroBlock.size = 65536 := size_zeros 65536
  refine ⟨?_, fun index hi => byteAt_zeroFill h (.inl hi), fun index hstart hstop => ?_,
    fun index hi => byteAt_zeroFill h (.inr hi), fun rounds => ?_, ?_⟩
  · rw [zeroFill_eq h]
    simp
    omega
  · rw [byteAt_zeroFill_eq h, if_pos ⟨hstart, hstop⟩]
  · rw [Filling.iterate_round h, hblock]
    show count - min count (rounds * 65536) = 0 ↔ _
    omega
  · rw [Filling.iterate_round h, hblock,
      Nat.min_eq_left (by omega : count ≤ (count + 65535) / 65536 * 65536), zeroFill_eq h]
    simp [Filling.partway]

/-- One zero more than a block holds, from the second of three bytes on. -/
theorem zeroFill_exact_block_and_one :
    1 ≤ (ByteArray.mk #[1, 2, 3]).size ∧
      (zeroFill ⟨#[1, 2, 3]⟩ 1 65537).size = 65538 ∧
      byteAt (zeroFill ⟨#[1, 2, 3]⟩ 1 65537) 0 = 1 ∧
      byteAt (zeroFill ⟨#[1, 2, 3]⟩ 1 65537) 2 = 0 ∧
      Nat.iterate Filling.round 2 ⟨⟨#[1, 2, 3]⟩, 1, 65537⟩ =
        ⟨zeroFill ⟨#[1, 2, 3]⟩ 1 65537, 65538, 0⟩ := by
  have h : 1 ≤ (ByteArray.mk #[1, 2, 3]).size := by decide
  obtain ⟨hsize, hbefore, hzero, -, -, hrounds⟩ := zeroFill_exact h 65537
  exact ⟨h, hsize, hbefore 0 (by decide), hzero 2 (by decide) (by decide), hrounds⟩

end ClassicZip.Bytes
