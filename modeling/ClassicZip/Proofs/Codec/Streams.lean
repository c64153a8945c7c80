import ClassicZip.Codec.Coders
import ClassicZip.Proofs.Codec.Portions

/-!
# Streams of output

What a decoder hands out is a stream of bytes that ends or fails. A caller who wants so many bytes
reads portion by portion until it has them or the stream is at its end. How much a single read
hands out makes no difference.
-/

namespace ClassicZip.Codec

inductive Ending
  | clean
  | failed
  deriving DecidableEq

structure Stream where
  bytes : ByteArray
  ending : Ending
  deriving DecidableEq

namespace Stream

/-- How many bytes a read hands out to a caller who has `taken` and asks for `asked`: at least one
as long as there are any, and no more than one more than `pace` says. -/
def read (stream : Stream) (pace : Nat → Nat → Nat) (taken asked : Nat) : Option Nat :=
  if taken < stream.bytes.size then
    some (min (min asked (stream.bytes.size - taken)) (pace taken asked + 1))
  else
    match stream.ending with
    | .clean => some 0
    | .failed => none

theorem le_of_read {stream : Stream} {pace : Nat → Nat → Nat} {taken asked count : Nat}
    (h : stream.read pace taken asked = some (count + 1)) :
    count + 1 ≤ stream.bytes.size - taken ∧ count + 1 ≤ asked := by
  unfold read at h
  split at h
  · have hcount := Option.some.inj h
    omega
  · split at h <;> cases h

def readOn (stream : Stream) (pace : Nat → Nat → Nat) (gathering : Gathering) :
    Option ByteArray :=
  if gathering.isFull then some (stream.bytes.extract 0 gathering.size)
  else match _h : stream.read pace gathering.size gathering.portion with
    | none => none
    | some 0 => some (stream.bytes.extract 0 gathering.size)
    | some (count + 1) => stream.readOn pace (gathering.after (count + 1))
termination_by stream.bytes.size - gathering.size
decreasing_by
  have hcount := (le_of_read _h).1
  rw [Gathering.size_after]
  omega

section
variable {stream : Stream} {pace : Nat → Nat → Nat} {gathering : Gathering}

theorem readOn_of_none (hopen : gathering.isFull = false)
    (h : stream.read pace gathering.size gathering.portion = none) :
    stream.readOn pace gathering = none := by
  rw [readOn, if_neg (by simp [hopen])]
  split <;> simp_all

theorem readOn_of_zero (hopen : gathering.isFull = false)
    (h : stream.read pace gathering.size gathering.portion = some 0) :
    stream.readOn pace gathering = some (stream.bytes.extract 0 gathering.size) := by
  rw [readOn, if_neg (by simp [hopen])]
  split <;> simp_all

theorem readOn_of_succ (hopen : gathering.isFull = false) {count : Nat}
    (h : stream.read pace gathering.size gathering.portion = some (count + 1)) :
    stream.readOn pace gathering = stream.readOn pace (gathering.after (count + 1)) := by
  rw [readOn, if_neg (by simp [hopen])]
  split <;> simp_all

end

def readBounded (stream : Stream) (pace : Nat → Nat → Nat) (expected : Nat) : Option ByteArray :=
  stream.readOn pace (.start expected (expected + 1))

/-- The first `wanted` bytes of a stream, or all of them; a failure in front of these is one. -/
def upTo (stream : Stream) (wanted : Nat) : Option ByteArray :=
  if wanted ≤ stream.bytes.size then some (stream.bytes.extract 0 wanted)
  else
    match stream.ending with
    | .clean => some stream.bytes
    | .failed => none

section
variable {stream : Stream} {taken asked : Nat}

theorem read_of_lt (h : taken < stream.bytes.size) (pace : Nat → Nat → Nat) :
    stream.read pace taken asked =
      some (min (min asked (stream.bytes.size - taken)) (pace taken asked + 1)) :=
  if_pos h

theorem read_of_le (h : stream.bytes.size ≤ taken) (pace : Nat → Nat → Nat) :
    stream.read pace taken asked = match stream.ending with
      | .clean => some 0
      | .failed => none :=
  if_neg (Nat.not_lt_of_le h)

end

/-- To read on in portions, however large they are, is to take so many bytes off the stream. -/
theorem readOn_eq (stream : Stream) (pace : Nat → Nat → Nat) {gathering : Gathering}
    (hroomy : gathering.Roomy) (hwanted : gathering.size ≤ gathering.wanted)
    (htaken : gathering.size ≤ stream.bytes.size) :
    stream.readOn pace gathering = stream.upTo gathering.wanted := by
  induction gathering using readOn.induct stream pace with
  | case1 gathering hfull =>
    have hall := Nat.le_antisymm (of_decide_eq_true hfull) hwanted
    rw [readOn, if_pos hfull, upTo, hall, if_pos htaken]
  | case2 gathering hopen hread =>
    rw [Bool.not_eq_true] at hopen
    have hsize := Gathering.isFull_eq_false.mp hopen
    rw [readOn_of_none hopen hread]
    rcases Nat.lt_or_ge gathering.size stream.bytes.size with hlt | hge
    · rw [read_of_lt hlt] at hread
      cases hread
    · rw [read_of_le hge] at hread
      rw [upTo, if_neg (by omega)]
      cases hending : stream.ending with
      | clean =>
        rw [hending] at hread
        cases hread
      | failed => rfl
  | case3 gathering hopen hread =>
    rw [Bool.not_eq_true] at hopen
    have hsize := Gathering.isFull_eq_false.mp hopen
    have hportion := hroomy.portion_pos hopen
    rw [readOn_of_zero hopen hread]
    rcases Nat.lt_or_ge gathering.size stream.bytes.size with hlt | hge
    · -- A portion has room, so something would have come.
      rw [read_of_lt hlt] at hread
      have hcount := Option.some.inj hread
      omega
    · rw [read_of_le hge] at hread
      rw [upTo, if_neg (by omega), Nat.le_antisymm htaken hge, ByteArray.extract_zero_size]
      cases hending : stream.ending with
      | clean => rfl
      | failed =>
        rw [hending] at hread
        cases hread
  | case4 gathering hopen count hread ih =>
    rw [Bool.not_eq_true] at hopen
    obtain ⟨hleft, hasked⟩ := le_of_read hread
    have hportion := gathering.portion_le
    rw [readOn_of_succ hopen hread, ih (hroomy.after hasked) (by simp; omega) (by simp; omega),
      Gathering.wanted_after]

theorem readBounded_eq (stream : Stream) (pace : Nat → Nat → Nat) (expected : Nat) :
    stream.readBounded pace expected = stream.upTo (expected + 1) :=
  stream.readOn_eq pace (Gathering.roomy_start _ _) (Nat.zero_le _) (Nat.zero_le _)

end Stream

end ClassicZip.Codec
