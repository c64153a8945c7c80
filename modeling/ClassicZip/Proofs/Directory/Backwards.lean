import ClassicZip.Proofs.Cursor.Ahead
import ClassicZip.Proofs.Directory.Search

/-!
# The search jumps from signature to signature

A library finds the last place at which a pattern stands in some bytes. With its help the end record
is searched backwards: where no record fits behind the last signature, the search goes on with what
is in front of that signature. `search_exact`: this misses no record and comes to the last one, just
as looking at each place does.
-/

namespace ClassicZip

open Bytes

structure OccursAt (pattern bytes : ByteArray) (position : Nat) : Prop where
  fits : position + pattern.size ≤ bytes.size
  slice_eq : slice bytes position pattern.size = pattern

instance (pattern bytes : ByteArray) (position : Nat) :
    Decidable (OccursAt pattern bytes position) :=
  decidable_of_iff (position + pattern.size ≤ bytes.size ∧
    slice bytes position pattern.size = pattern) ⟨fun h => ⟨h.1, h.2⟩, fun h => ⟨h.1, h.2⟩⟩

structure LastFinder (pattern : ByteArray) where
  find? : ByteArray → Option Nat
  of_some {bytes : ByteArray} {position : Nat} : find? bytes = some position →
    OccursAt pattern bytes position ∧ ∀ later, position < later → ¬OccursAt pattern bytes later
  of_none {bytes : ByteArray} : find? bytes = none → ∀ position, ¬OccursAt pattern bytes position

section
variable {pattern bytes : ByteArray} {position limit : Nat}

theorem OccursAt.byteAt_eq (h : OccursAt pattern bytes position) {index : Nat}
    (hi : index < pattern.size) : byteAt bytes (position + index) = byteAt pattern index := by
  rw [← byteAt_slice hi, h.slice_eq]

theorem occursAt_extract (hlimit : limit ≤ bytes.size) :
    OccursAt pattern (bytes.extract 0 limit) position ↔
      OccursAt pattern bytes position ∧ position + pattern.size ≤ limit := by
  have hsize : (bytes.extract 0 limit).size = limit := by
    rw [ByteArray.size_extract]
    omega
  have hslice (hfit : position + pattern.size ≤ limit) :
      slice (bytes.extract 0 limit) position pattern.size = slice bytes position pattern.size :=
    slice_congr (by omega) (by omega) fun index _ hi => by
      rw [byteAt_extract (by omega), Nat.zero_add]
  constructor
  · rintro ⟨hfit, heq⟩
    rw [hsize] at hfit
    exact ⟨⟨by omega, (hslice hfit).symm.trans heq⟩, hfit⟩
  · rintro ⟨⟨-, heq⟩, hfit⟩
    exact ⟨by omega, (hslice hfit).trans heq⟩

theorem LastFinder.spec (finder : LastFinder pattern) (hlimit : limit ≤ bytes.size)
    (h : finder.find? (bytes.extract 0 limit) = some position) :
    OccursAt pattern bytes position ∧ position + pattern.size ≤ limit ∧
      ∀ later, position < later → later + pattern.size ≤ limit → ¬OccursAt pattern bytes later := by
  obtain ⟨hfront, hlast⟩ := finder.of_some h
  obtain ⟨hoccurs, hend⟩ := (occursAt_extract hlimit).mp hfront
  exact ⟨hoccurs, hend, fun later hlater hin hother =>
    hlast later hlater ((occursAt_extract hlimit).mpr ⟨hother, hin⟩)⟩

def lastBelow? (pattern bytes : ByteArray) : Nat → Option Nat
  | 0 => none
  | position + 1 =>
    if OccursAt pattern bytes position then some position else lastBelow? pattern bytes position

theorem lastBelow?_some (h : lastBelow? pattern bytes limit = some position) :
    OccursAt pattern bytes position ∧
      ∀ later, position < later → later < limit → ¬OccursAt pattern bytes later := by
  induction limit with
  | zero => cases h
  | succ limit ih =>
    rw [lastBelow?] at h
    split at h
    · rename_i hoccurs
      obtain rfl := Option.some.inj h
      exact ⟨hoccurs, fun later hlater hin => by omega⟩
    · rename_i hnot
      refine ⟨(ih h).1, fun later hlater hin => ?_⟩
      rcases Nat.lt_succ_iff_lt_or_eq.mp hin with hin | rfl
      · exact (ih h).2 later hlater hin
      · exact hnot

theorem lastBelow?_none (h : lastBelow? pattern bytes limit = none) :
    ∀ position < limit, ¬OccursAt pattern bytes position := by
  induction limit with
  | zero => simp
  | succ limit ih =>
    rw [lastBelow?] at h
    split at h
    · cases h
    · rename_i hnot
      intro position hin
      rcases Nat.lt_succ_iff_lt_or_eq.mp hin with hin | rfl
      · exact ih h position hin
      · exact hnot

def LastFinder.stepping (pattern : ByteArray) : LastFinder pattern where
  find? bytes := lastBelow? pattern bytes (bytes.size + 1)
  of_some h := ⟨(lastBelow?_some h).1, fun later hlater hoccurs =>
    (lastBelow?_some h).2 later hlater (by have hfits := hoccurs.fits; omega) hoccurs⟩
  of_none h position hoccurs :=
    lastBelow?_none h position (by have hfits := hoccurs.fits; omega) hoccurs

/-- Two places of a pattern whose first byte stands nowhere else in it do not overlap. -/
theorem OccursAt.apart {later : Nat} (h : OccursAt pattern bytes position)
    (hlater : OccursAt pattern bytes later)
    (hfirst : ∀ index < pattern.size, 0 < index → byteAt pattern index ≠ byteAt pattern 0)
    (hlt : position < later) : position + pattern.size ≤ later := by
  obtain ⟨gap, rfl⟩ := Nat.exists_eq_add_of_lt hlt
  refine Nat.le_of_not_lt fun hover => ?_
  have hin : gap + 1 < pattern.size := by omega
  refine hfirst (gap + 1) hin (Nat.succ_pos gap) ?_
  have hsame := hlater.byteAt_eq (Nat.zero_lt_of_lt hin)
  rw [Nat.add_zero, Nat.add_assoc, h.byteAt_eq hin] at hsame
  exact hsame

end

namespace EndRecord

def magic : ByteArray := ⟨#[0x50, 0x4b, 0x05, 0x06]⟩

/-- The record behind a signature at `position`, where it has room with its comment. -/
def behindSignature? (tail : ByteArray) (position : Nat) : Option EndRecord :=
  match Cursor.takeEndRecord ⟨tail, position + 4⟩ with
  | .error _ => none
  | .ok (record, _) =>
    if position + fixedSize + record.commentLength.toNat ≤ tail.size then some record else none

theorem lt_of_find? {finder : LastFinder magic} {tail : ByteArray} {limit position : Nat}
    (h : finder.find? (tail.extract 0 limit) = some position) : position < limit := by
  have hfit := (finder.of_some h).1.fits
  have hmagic : magic.size = 4 := rfl
  rw [ByteArray.size_extract] at hfit
  omega

def search (finder : LastFinder magic) (tail : ByteArray) (limit : Nat) :
    Option (Nat × EndRecord) :=
  match _h : finder.find? (tail.extract 0 limit) with
  | none => none
  | some position =>
    match behindSignature? tail position with
    | some record => some (position, record)
    | none => search finder tail position
termination_by limit
decreasing_by exact lt_of_find? _h

/-- At `position` the record stands behind its signature, and the comment that it declares fits. -/
structure StandsAt (tail : ByteArray) (position : Nat) (record : EndRecord) : Prop where
  signed : OccursAt magic tail position
  record_eq : record = decode (slice tail (position + 4) bodySize)
  fits : position + fixedSize + record.commentLength.toNat ≤ tail.size

-- ---------------------------------------------------------------------------
-- One place
-- ---------------------------------------------------------------------------

section
variable {tail : ByteArray} {position : Nat}

theorem occursAt_magic_iff :
    OccursAt magic tail position ↔ position + 4 ≤ tail.size ∧ u32At tail position = signature := by
  have hmagic : magic = le32 signature := by decide
  have hword : u32At (slice tail position 4) 0 = u32At tail position := u32At_slice (Nat.le_refl 4)
  constructor
  · rintro ⟨hfit, heq⟩
    refine ⟨hfit, ?_⟩
    rw [← hword, show slice tail position 4 = magic from heq, hmagic, u32At_le32]
  · rintro ⟨hfit, hsig⟩
    refine ⟨hfit, ?_⟩
    rw [show magic.size = 4 from rfl, ← le32_u32At hfit, hsig, hmagic]

theorem behindSignature?_eq_some_iff {record : EndRecord} :
    behindSignature? tail position = some record ↔
      record = decode (slice tail (position + 4) bodySize) ∧
        position + fixedSize + record.commentLength.toNat ≤ tail.size := by
  have hfixed : fixedSize = 4 + bodySize := rfl
  unfold behindSignature?
  cases htaken : Cursor.takeEndRecord ⟨tail, position + 4⟩ with
  | error fault =>
    constructor
    · intro h
      cases h
    · rintro ⟨-, hfits⟩
      have hfit : position + 4 + bodySize ≤ tail.size := by omega
      have htake : Cursor.take ⟨tail, position + 4⟩ bodySize =
          .ok (slice tail (position + 4) bodySize, ⟨tail, position + 4 + bodySize⟩) :=
        Cursor.take_ok.mpr ⟨hfit, rfl, rfl⟩
      cases htaken.symm.trans (Cursor.takeEndRecord_ok.mpr ⟨_, htake, rfl⟩)
  | ok taken =>
    obtain ⟨_, htake, hrecord⟩ := Cursor.takeEndRecord_ok.mp htaken
    obtain ⟨-, rfl, -⟩ := Cursor.take_ok.mp htake
    simp only [hrecord, Option.ite_none_right_eq_some, Option.some.injEq]
    constructor
    · rintro ⟨hfits, rfl⟩
      exact ⟨rfl, hfits⟩
    · rintro ⟨rfl, hfits⟩
      exact ⟨hfits, rfl⟩

theorem at?_eq_some_iff {record : EndRecord} :
    at? tail position = some record ↔ StandsAt tail position record := by
  have hfixed : fixedSize = 4 + bodySize := rfl
  simp only [at?, Option.ite_none_right_eq_some, Option.some.injEq]
  constructor
  · rintro ⟨⟨hfit, hsig⟩, hfits, rfl⟩
    exact ⟨occursAt_magic_iff.mpr ⟨by omega, hsig⟩, rfl, hfits⟩
  · rintro ⟨hsigned, rfl, hfits⟩
    exact ⟨⟨by omega, (occursAt_magic_iff.mp hsigned).2⟩, hfits, rfl⟩

theorem at?_of_occursAt (h : OccursAt magic tail position) :
    at? tail position = behindSignature? tail position := by
  refine Option.ext fun record => ?_
  rw [at?_eq_some_iff, behindSignature?_eq_some_iff]
  exact ⟨fun hstands => ⟨hstands.record_eq, hstands.fits⟩, fun hread => ⟨h, hread.1, hread.2⟩⟩

theorem at?_of_not_occursAt (h : ¬OccursAt magic tail position) : at? tail position = none :=
  Option.eq_none_iff_forall_ne_some.mpr fun _ hsome => h (at?_eq_some_iff.mp hsome).signed

end

-- ---------------------------------------------------------------------------
-- All places
-- ---------------------------------------------------------------------------

section
variable {tail : ByteArray}

theorem findBelow?_of_none {low high : Nat} (hle : low ≤ high)
    (hnone : ∀ position, low ≤ position → position < high → at? tail position = none) :
    findBelow? tail high = findBelow? tail low := by
  induction high with
  | zero => rw [Nat.le_zero.mp hle]
  | succ high ih =>
    rcases Nat.le_succ_iff.mp hle with hlow | rfl
    · rw [findBelow?, hnone high hlow (Nat.lt_succ_self high)]
      exact ih hlow fun position hfrom hto => hnone position hfrom (Nat.lt_succ_of_lt hto)
    · rfl

/-- A jump leaves out no record: behind a signature that was given up there is none, and none starts
within the three bytes in front of it. -/
theorem search_eq (finder : LastFinder magic) {limit : Nat} (hlimit : limit ≤ tail.size) :
    search finder tail limit = findBelow? tail (limit - 3) := by
  have hmagic : magic.size = 4 := rfl
  fun_induction search finder tail limit with
  | case1 limit hnone =>
    refine (findBelow?_eq_none_iff.mpr fun position hposition => ?_).symm
    refine at?_of_not_occursAt fun hoccurs => finder.of_none hnone position ?_
    exact (occursAt_extract hlimit).mpr ⟨hoccurs, by omega⟩
  | case2 limit position hfound record hrecord =>
    obtain ⟨hsigned, hend, hbehind⟩ := finder.spec hlimit hfound
    rw [← at?_of_occursAt hsigned] at hrecord
    refine (findBelow?_eq_some_iff.mpr ⟨by omega, hrecord, fun later hlater hin => ?_⟩).symm
    exact at?_of_not_occursAt (hbehind later hlater (by omega))
  | case3 limit position hfound hrejected ih =>
    obtain ⟨hsigned, hend, hbehind⟩ := finder.spec hlimit hfound
    rw [← at?_of_occursAt hsigned] at hrejected
    rw [ih (by omega)]
    -- The places left out overlap the signature, hold it, or lie behind it.
    refine (findBelow?_of_none (by omega) fun other hother hin => ?_).symm
    rcases Nat.lt_trichotomy other position with hbefore | rfl | hlater
    · refine at?_of_not_occursAt fun hoccurs => ?_
      have hapart := hoccurs.apart hsigned (by decide) hbefore
      omega
    · exact hrejected
    · exact at?_of_not_occursAt (hbehind other hlater (by omega))

theorem search_eq_find? (finder : LastFinder magic) (tail : ByteArray) :
    search finder tail tail.size = find? tail := by
  have hmagic : magic.size = 4 := rfl
  rw [search_eq finder (Nat.le_refl _), find?]
  refine (findBelow?_of_none (Nat.sub_le _ _) fun position hposition _ => ?_).symm
  refine at?_of_not_occursAt fun hoccurs => ?_
  have hfits := hoccurs.fits
  omega

end

/-- With any library that finds the last place of the signature, the search comes to the last place
at which the record stands and has room with its comment, and to the record that stands there. It
comes to nothing just where there is no such place. To look at each place from the back on comes to
the same. -/
theorem search_exact (finder : LastFinder magic) (tail : ByteArray) :
    (∀ position record, search finder tail tail.size = some (position, record) ↔
      StandsAt tail position record ∧
        ∀ later other, position < later → ¬StandsAt tail later other) ∧
    (search finder tail tail.size = none ↔ ∀ position record, ¬StandsAt tail position record) ∧
    find? tail = search finder tail tail.size := by
  have hpos : 0 < fixedSize := by decide
  have hinside {position : Nat} {record : EndRecord} (h : StandsAt tail position record) :
      position < tail.size := by
    have hfits := h.fits
    omega
  simp only [search_eq_find?, and_true]
  refine ⟨fun position record => ?_, ?_⟩
  · rw [find?, findBelow?_eq_some_iff, at?_eq_some_iff]
    constructor
    · rintro ⟨-, hstands, hlast⟩
      refine ⟨hstands, fun later other hlater hother => ?_⟩
      have hnone := hlast later hlater (hinside hother)
      cases hnone.symm.trans (at?_eq_some_iff.mpr hother)
    · rintro ⟨hstands, hlast⟩
      refine ⟨hinside hstands, hstands, fun later hlater _ => ?_⟩
      exact Option.eq_none_iff_forall_ne_some.mpr fun other hother =>
        hlast later other hlater (at?_eq_some_iff.mp hother)
  · rw [find?, findBelow?_eq_none_iff]
    constructor
    · intro hnone position record hstands
      cases (hnone position (hinside hstands)).symm.trans (at?_eq_some_iff.mpr hstands)
    · intro hnone position _
      exact Option.eq_none_iff_forall_ne_some.mpr fun record hrecord =>
        hnone position record (at?_eq_some_iff.mp hrecord)

/-- A signature in the comment of a record is given up, and the record in front of it is found. -/
theorem search_exact_commented :
    search (.stepping magic) ((ofSingleDisk 0 0 0 4).ending magic) 26 =
      some (0, ofSingleDisk 0 0 0 4) ∧ search (.stepping magic) magic 4 = none := by
  have hnone : ∀ later < 26, 0 < later →
      at? ((ofSingleDisk 0 0 0 4).ending magic) later = none := by
    decide +kernel
  constructor
  · refine ((search_exact (.stepping magic) ((ofSingleDisk 0 0 0 4).ending magic)).1 0 _).mpr
      ⟨at?_eq_some_iff.mp (by decide +kernel), fun later other hlater hother => ?_⟩
    have hfits : later + fixedSize + other.commentLength.toNat ≤ 26 := hother.fits
    have hpos : 0 < fixedSize := by decide
    cases (hnone later (by omega) hlater).symm.trans (at?_eq_some_iff.mpr hother)
  · refine (search_exact (.stepping magic) magic).2.1.mpr fun position record hstands => ?_
    have hfits : position + 22 + record.commentLength.toNat ≤ 4 := hstands.fits
    omega

end EndRecord

end ClassicZip
