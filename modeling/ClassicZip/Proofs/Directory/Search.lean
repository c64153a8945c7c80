import ClassicZip.Directory
import ClassicZip.Proofs.Record.RoundTrip

/-!
# The search finds the last record

The search from the back stops at the last place where a record and its comment fit. An archive
that ends in a record and its comment is read from that record if the signature occurs nowhere
behind the record's first byte; the bytes of a comment could otherwise be taken for a record.
-/

namespace ClassicZip

open Bytes

namespace EndRecord

theorem findBelow?_eq_some_iff {tail : ByteArray} {limit position : Nat} {record : EndRecord} :
    findBelow? tail limit = some (position, record) ↔
      position < limit ∧ at? tail position = some record ∧
        ∀ later, position < later → later < limit → at? tail later = none := by
  induction limit with
  | zero => simp [findBelow?]
  | succ limit ih =>
    unfold findBelow?
    cases hat : at? tail limit with
    | some found =>
      simp only [Option.some.injEq, Prod.mk.injEq]
      constructor
      · rintro ⟨rfl, rfl⟩
        exact ⟨Nat.lt_succ_self _, hat, fun later h1 h2 => by omega⟩
      · rintro ⟨hlt, hp, hlast⟩
        have heq : limit = position := by
          rcases Nat.lt_or_ge position limit with h | h
          · rw [hlast limit h (Nat.lt_succ_self _)] at hat
            cases hat
          · omega
        subst heq
        exact ⟨rfl, Option.some.inj (hat.symm.trans hp)⟩
    | none =>
      simp only [ih]
      constructor
      · rintro ⟨hlt, hp, hlast⟩
        refine ⟨Nat.lt_succ_of_lt hlt, hp, fun later h1 h2 => ?_⟩
        rcases Nat.lt_succ_iff_lt_or_eq.mp h2 with h | rfl
        · exact hlast later h1 h
        · exact hat
      · rintro ⟨hlt, hp, hlast⟩
        have hne : position ≠ limit := by
          rintro rfl
          rw [hat] at hp
          cases hp
        exact ⟨by omega, hp, fun later h1 h2 => hlast later h1 (Nat.lt_succ_of_lt h2)⟩

theorem at?_fits {tail : ByteArray} {position : Nat} {record : EndRecord}
    (h : at? tail position = some record) :
    position + fixedSize + record.commentLength.toNat ≤ tail.size := by
  unfold at? at h
  split at h
  · dsimp only at h
    split at h
    · obtain rfl := Option.some.inj h
      assumption
    · cases h
  · cases h

theorem at?_of_byteAt_ne {tail : ByteArray} {position : Nat}
    (h : byteAt tail position ≠ 0x50) : at? tail position = none := by
  unfold at?
  rw [if_neg]
  rintro ⟨-, hsig⟩
  apply h
  have hword := toNat_u32At tail position
  have hlow := (byteAt tail position).toNat_lt
  rw [hsig, show signature.toNat = 0x06054b50 from rfl] at hword
  apply UInt8.toNat_inj.mp
  rw [show UInt8.toNat 0x50 = 80 from rfl]
  omega

theorem find?_fits {tail : ByteArray} {position : Nat} {record : EndRecord}
    (h : find? tail = some (position, record)) :
    position + fixedSize + record.commentLength.toNat ≤ tail.size :=
  at?_fits (findBelow?_eq_some_iff.mp h).2.1

def ending (record : EndRecord) (comment : ByteArray) : ByteArray :=
  le32 signature ++ (record.encode ++ comment)

@[simp] theorem size_ending (record : EndRecord) (comment : ByteArray) :
    (record.ending comment).size = fixedSize + comment.size := by
  simp [ending, fixedSize, Nat.add_assoc]

/-- In the end record and the comment of `commentSize` bytes with which the image ends, the
signature occurs only at the first byte of the record. -/
def SoleSignature (image : ByteArray) (commentSize : Nat) : Prop :=
  ∀ position < image.size, image.size - (fixedSize + commentSize) < position →
    position + 4 ≤ image.size → u32At image position ≠ signature

instance (image : ByteArray) (commentSize : Nat) : Decidable (SoleSignature image commentSize) := by
  unfold SoleSignature
  infer_instance

/-- Behind the first byte of the end record and the comment of `commentSize` bytes with which the
image ends, no other record fits together with the comment that it declares. -/
def Unrivalled (image : ByteArray) (commentSize : Nat) : Prop :=
  ∀ position < image.size, image.size - (fixedSize + commentSize) < position →
    at? image position = none

instance (image : ByteArray) (commentSize : Nat) : Decidable (Unrivalled image commentSize) := by
  unfold Unrivalled
  infer_instance

theorem SoleSignature.unrivalled {image : ByteArray} {commentSize : Nat}
    (hs : SoleSignature image commentSize) : Unrivalled image commentSize := by
  intro position hp hbehind
  unfold at?
  rw [if_neg]
  rintro ⟨hfit, hsig⟩
  exact hs position hp hbehind (Nat.le_trans (Nat.add_le_add_left (by decide) _) hfit) hsig

theorem at?_append_right (front back : ByteArray) (position : Nat) :
    at? (front ++ back) (front.size + position) = at? back position := by
  have hrecord : front.size + position + fixedSize ≤ (front ++ back).size ↔
      position + fixedSize ≤ back.size := by
    rw [ByteArray.size_append]
    omega
  have hcomment (count : Nat) : front.size + position + fixedSize + count ≤ (front ++ back).size ↔
      position + fixedSize + count ≤ back.size := by
    rw [ByteArray.size_append]
    omega
  have hsig : u32At (front ++ back) (front.size + position) = u32At back position := by
    rw [u32At_append_right (Nat.le_add_right _ _), Nat.add_sub_cancel_left]
  have hbody : slice (front ++ back) (front.size + position + 4) bodySize =
      slice back (position + 4) bodySize := by
    rw [Nat.add_assoc, slice_append_right (Nat.le_add_right _ _), Nat.add_sub_cancel_left]
  simp only [at?, hsig, hbody, hrecord, hcomment]

theorem unrivalled_append {front back : ByteArray} {commentSize : Nat}
    (hfit : fixedSize + commentSize ≤ back.size) :
    Unrivalled (front ++ back) commentSize ↔ Unrivalled back commentSize := by
  simp only [Unrivalled, ByteArray.size_append]
  constructor
  · intro h position hp hbehind
    rw [← at?_append_right front]
    exact h _ (by omega) (by omega)
  · intro h position hp hbehind
    obtain ⟨inner, rfl⟩ : ∃ inner, position = front.size + inner :=
      Nat.exists_eq_add_of_le (by omega)
    rw [at?_append_right]
    exact h inner (by omega) (by omega)

section
variable {record : EndRecord} {comment : ByteArray}

theorem at?_ending (hc : comment.size = record.commentLength.toNat) (front : ByteArray) :
    at? (front ++ record.ending comment) front.size = some record := by
  have hbody : slice (record.ending comment) 4 bodySize = record.encode :=
    record.size_encode ▸ slice_append_append (le32 signature) _ _
  have hsig : u32At (record.ending comment) 0 = signature := u32At_le32_append _ _
  rw [← Nat.add_zero front.size, at?_append_right]
  simp [at?, hsig, hbody, decode_encode, hc]

theorem find?_ending (hc : comment.size = record.commentLength.toNat) (front : ByteArray)
    (hu : Unrivalled (front ++ record.ending comment) comment.size) :
    find? (front ++ record.ending comment) = some (front.size, record) := by
  have hinside : front.size < (front ++ record.ending comment).size := by
    have hpos : 0 < fixedSize := by decide
    rw [ByteArray.size_append, size_ending]
    omega
  refine findBelow?_eq_some_iff.mpr ⟨hinside, at?_ending hc front, fun later hl hsize => ?_⟩
  exact hu later hsize (by simp; omega)

end

end EndRecord

namespace Directory

theorem tailOf_eq (image : ByteArray) :
    tailOf image = image.extract (image.size - EndRecord.searchSpan) image.size := by
  unfold tailOf
  split
  · rename_i hle
    rw [Nat.sub_eq_zero_of_le hle, ByteArray.extract_zero_size]
  · rfl

theorem tailOf_append (front : ByteArray) {back : ByteArray}
    (hb : back.size ≤ EndRecord.searchSpan) :
    ∃ before near, front = before ++ near ∧ tailOf (front ++ back) = near ++ back := by
  obtain ⟨start, hstart⟩ :
      ∃ start, start = (front ++ back).size - EndRecord.searchSpan := ⟨_, rfl⟩
  have hle : start ≤ front.size := by simp at hstart; omega
  refine ⟨front.extract 0 start, front.extract start front.size, ?_, ?_⟩
  · rw [ByteArray.extract_append_extract, Nat.zero_min, Nat.max_eq_right hle,
      ByteArray.extract_zero_size]
  · have hpast : front.extract start (front ++ back).size = front.extract start front.size := by
      simp [ByteArray.ext_iff, Array.extract_eq_extract_right]
      omega
    rw [tailOf_eq, ← hstart, ByteArray.extract_append, hpast, Nat.sub_eq_zero_of_le hle]
    simp

end Directory

end ClassicZip
