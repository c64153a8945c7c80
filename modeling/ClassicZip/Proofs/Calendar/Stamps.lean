import ClassicZip.DosTime
import ClassicZip.Proofs.Calendar.Days

/-!
# Time stamps of Unix times

A stamp of the calendar is the stamp of the Unix time that it stands for, and that time is even. Any
other time has the stamp of the nearest such time in front of it, or of the first one. So later
times never have earlier stamps.
-/

namespace ClassicZip

theorem CivilDate.daysInMonth_le (year month : Int) : daysInMonth year month ≤ 31 := by
  unfold daysInMonth
  split
  · split <;> decide
  · split <;> decide

namespace DosTime

open CivilDate (ofDays toDays)

def Reads (stamp : DosTime) (date : CivilDate) (hour minute second : Int) : Prop :=
  stamp.civilDate = date ∧ stamp.hour = hour ∧ stamp.minute = minute ∧ stamp.second = second

def AtMost (early late : DosTime) : Prop :=
  early.date < late.date ∨ early.date = late.date ∧ early.time ≤ late.time

-- ---------------------------------------------------------------------------
-- Packed fields
-- ---------------------------------------------------------------------------

section
variable {stamp : DosTime} {date : CivilDate} {hour minute second : Int}

theorem pack_reads (hdate : date.Valid) (hfirst : 1980 ≤ date.year) (hlast : date.year ≤ 2107)
    (hhour : 0 ≤ hour ∧ hour < 24) (hminute : 0 ≤ minute ∧ minute < 60)
    (hsecond : 0 ≤ second ∧ second < 60) :
    (pack date hour minute second).Reads date hour minute (second - second % 2) := by
  obtain ⟨year, month, day⟩ := date
  obtain ⟨hmonth, hmonths, hday, hdays⟩ := hdate
  have hshort := Int.le_trans hdays (CivilDate.daysInMonth_le _ _)
  dsimp only at hfirst hlast hmonth hmonths hday hshort
  simp only [Reads, civilDate, DosTime.hour, DosTime.minute, DosTime.second, pack,
    CivilDate.mk.injEq, UInt16.toNat_ofNat']
  omega

theorem pack_fields (stamp : DosTime) :
    pack stamp.civilDate stamp.hour stamp.minute stamp.second = stamp := by
  obtain ⟨time, date⟩ := stamp
  have htime := time.toNat_lt
  have hdate := date.toNat_lt
  simp only [pack, civilDate, DosTime.hour, DosTime.minute, DosTime.second, mk.injEq,
    ← UInt16.toNat_inj, UInt16.toNat_ofNat']
  omega

theorem toUnix?_eq_some_iff {seconds : Int} : stamp.toUnix? = some seconds ↔ stamp.Valid ∧
    seconds = stamp.civilDate.toDays * 86400 + stamp.hour * 3600 + stamp.minute * 60 +
      stamp.second := by
  unfold toUnix?
  split
  · rename_i h
    simp [h, eq_comm]
  · rename_i h
    simp [h]

theorem isSome_toUnix?_iff : stamp.toUnix?.isSome = true ↔ stamp.civilDate.Valid ∧
    stamp.hour < 24 ∧ stamp.minute < 60 ∧ stamp.second < 60 := by
  simp only [Option.isSome_iff_exists, toUnix?_eq_some_iff]
  constructor
  · rintro ⟨_, ⟨hdate, hhour, hminute, hsecond⟩, -⟩
    exact ⟨hdate, by omega, by omega, by omega⟩
  · rintro ⟨hdate, hhour, hminute, hsecond⟩
    exact ⟨_, ⟨hdate, by omega, by omega, by omega⟩, rfl⟩

theorem toUnix?_reads (h : stamp.Reads date hour minute second) (hdate : date.Valid)
    (hhour : hour < 24) (hminute : minute < 60) (hsecond : second < 60) :
    stamp.toUnix? = some (date.toDays * 86400 + hour * 3600 + minute * 60 + second) := by
  obtain ⟨rfl, rfl, rfl, rfl⟩ := h
  rw [toUnix?_eq_some_iff]
  exact ⟨⟨hdate, by omega, by omega, by omega⟩, rfl⟩

end

-- ---------------------------------------------------------------------------
-- The stamp of a time
-- ---------------------------------------------------------------------------

def yearOf (seconds : Int) : Int := (ofDays (seconds / 86400)).year

theorem yearOf_lt_iff {seconds year : Int} :
    yearOf seconds < year ↔ seconds < toDays ⟨year, 1, 1⟩ * 86400 := by
  rw [yearOf, CivilDate.year_ofDays_lt_iff]
  omega

section
variable {seconds : Int}

theorem ofUnix_early (h : yearOf seconds < 1980) : ofUnix seconds = earliest := by
  have hmax : yearOf (max seconds 0) < 1980 := by
    rw [yearOf_lt_iff] at h ⊢
    have hepoch : (0 : Int) < toDays ⟨1980, 1, 1⟩ * 86400 := by decide
    omega
  exact if_pos hmax

theorem ofUnix_later (h : 1980 ≤ yearOf seconds) : ofUnix seconds =
    if 2107 < yearOf seconds then latest
    else pack (ofDays (seconds / 86400)) (seconds % 86400 / 3600) (seconds % 86400 % 3600 / 60)
      (seconds % 86400 % 60) := by
  have hmax : max seconds 0 = seconds := by
    have hepoch : (0 : Int) < toDays ⟨1980, 1, 1⟩ * 86400 := by decide
    rw [← Int.not_lt, yearOf_lt_iff] at h
    omega
  unfold ofUnix
  rw [hmax]
  exact if_neg (Int.not_lt.mpr h)

theorem ofUnix_reads (hfirst : 1980 ≤ yearOf seconds) (hlast : yearOf seconds ≤ 2107) :
    (ofUnix seconds).Reads (ofDays (seconds / 86400)) (seconds % 86400 / 3600)
      (seconds % 86400 % 3600 / 60) (seconds % 86400 % 60 - seconds % 86400 % 60 % 2) := by
  rw [ofUnix_later hfirst, if_neg (Int.not_lt.mpr hlast)]
  exact pack_reads (CivilDate.valid_ofDays _) hfirst hlast (by omega) (by omega) (by omega)

theorem earliest_reads : earliest.Reads ⟨1980, 1, 1⟩ 0 0 0 := ⟨rfl, rfl, rfl, rfl⟩

theorem latest_reads : latest.Reads ⟨2107, 12, 31⟩ 23 59 58 := ⟨rfl, rfl, rfl, rfl⟩

def firstSecond : Int := toDays ⟨1980, 1, 1⟩ * 86400

/-- The last even second that has a stamp of its own. -/
def lastSecond : Int := toDays ⟨2108, 1, 1⟩ * 86400 - 2

/-- The Unix time that the stamp of a time stands for. -/
def nearest (seconds : Int) : Int := max firstSecond (min lastSecond (seconds - seconds % 2))

theorem nearest_mono {earlier later : Int} (h : earlier ≤ later) :
    nearest earlier ≤ nearest later := by
  unfold nearest
  omega

theorem nearest_early (h : yearOf seconds < 1980) : nearest seconds = firstSecond := by
  rw [yearOf_lt_iff] at h
  unfold nearest firstSecond
  omega

theorem nearest_late (h : 2107 < yearOf seconds) : nearest seconds = lastSecond := by
  have hlate : ¬yearOf seconds < 2108 := by omega
  have horder : firstSecond ≤ lastSecond := by decide
  rw [yearOf_lt_iff] at hlate
  unfold nearest lastSecond at *
  omega

theorem nearest_between (hfirst : 1980 ≤ yearOf seconds) (hlast : yearOf seconds ≤ 2107) :
    nearest seconds = seconds - seconds % 2 := by
  have hless : yearOf seconds < 2108 := by omega
  rw [← Int.not_lt, yearOf_lt_iff] at hfirst
  rw [yearOf_lt_iff] at hless
  unfold nearest firstSecond lastSecond
  omega

theorem toUnix?_ofUnix (seconds : Int) : (ofUnix seconds).toUnix? = some (nearest seconds) := by
  rcases Int.lt_or_le (yearOf seconds) 1980 with hearly | hfirst
  · rw [ofUnix_early hearly, nearest_early hearly]
    decide
  rcases Int.lt_or_le 2107 (yearOf seconds) with hlate | hlast
  · rw [ofUnix_later hfirst, if_pos hlate, nearest_late hlate]
    decide
  · rw [toUnix?_reads (ofUnix_reads hfirst hlast) (CivilDate.valid_ofDays _) (by omega) (by omega)
      (by omega), CivilDate.toDays_ofDays, nearest_between hfirst hlast, Option.some.injEq]
    omega

end

section
variable {stamp other : DosTime} {seconds : Int}

theorem ofDay_of_toUnix? (h : stamp.toUnix? = some seconds) :
    ofDays (seconds / 86400) = stamp.civilDate ∧
    seconds % 86400 = stamp.hour * 3600 + stamp.minute * 60 + stamp.second := by
  obtain ⟨⟨hdate, hhour, hminute, hsecond⟩, hseconds⟩ := toUnix?_eq_some_iff.mp h
  have hday : seconds / 86400 = stamp.civilDate.toDays := by omega
  refine ⟨?_, by omega⟩
  rw [hday, CivilDate.ofDays_toDays hdate]

theorem ofUnix_of_toUnix? (h : stamp.toUnix? = some seconds) : ofUnix seconds = stamp := by
  obtain ⟨hdate, hofDay⟩ := ofDay_of_toUnix? h
  obtain ⟨⟨-, hhour, hminute, hsecond⟩, -⟩ := toUnix?_eq_some_iff.mp h
  have hyear : yearOf seconds = 1980 + (stamp.date.toNat / 512 : Nat) := by
    rw [yearOf, hdate, civilDate]
  have hword := stamp.date.toNat_lt
  have hhours : seconds % 86400 / 3600 = stamp.hour := by omega
  have hminutes : seconds % 86400 % 3600 / 60 = stamp.minute := by omega
  have hremaining : seconds % 86400 % 60 = stamp.second := by omega
  rw [ofUnix_later (by omega), if_neg (by omega), hdate, hhours, hminutes, hremaining, pack_fields]

theorem atMost_of_toUnix?_le {later : Int} (h : stamp.toUnix? = some seconds)
    (hother : other.toUnix? = some later) (hle : seconds ≤ later) : stamp.AtMost other := by
  obtain ⟨⟨hdate, hhour, hminute, hsecond⟩, hseconds⟩ := toUnix?_eq_some_iff.mp h
  obtain ⟨⟨hdate', hhour', hminute', hsecond'⟩, hlater⟩ := toUnix?_eq_some_iff.mp hother
  rw [AtMost, ← UInt16.toNat_inj, UInt16.lt_iff_toNat_lt, UInt16.le_iff_toNat_le]
  rcases Nat.lt_trichotomy stamp.date.toNat other.date.toNat with hless | hsame | hgreater
  · exact .inl hless
  · refine .inr ⟨hsame, ?_⟩
    have hdays : stamp.civilDate = other.civilDate := by simp only [civilDate, hsame]
    have hours := Nat.div_div_eq_div_mul stamp.time.toNat 32 64
    have hours' := Nat.div_div_eq_div_mul other.time.toNat 32 64
    rw [hdays] at hseconds
    unfold hour minute second at *
    omega
  · -- A larger date is a later day, whatever the times of day are.
    have hdays := CivilDate.toDays_lt hdate' hdate (by
      simp only [CivilDate.Before, civilDate]
      omega)
    omega

end

/-- Whatever a Unix time is, its stamp is one of the calendar: it stands for the time itself,
rounded down to an even second, in the years 1980 to 2107, and for the first or the last of these
instants outside. Later times have no earlier stamps. A stamp stands for a time just when its fields
are a date that some day has and a time of day; that is their date and their time of day then, and
the stamp is the stamp of that time. -/
theorem conversion_exact :
    (∀ seconds : Int,
      (ofUnix seconds).Valid ∧
      (1980 ≤ yearOf seconds ∧ yearOf seconds ≤ 2107 →
        (ofUnix seconds).toUnix? = some (seconds - seconds % 2)) ∧
      (yearOf seconds < 1980 → (ofUnix seconds).Reads ⟨1980, 1, 1⟩ 0 0 0 ∧
        (ofUnix seconds).toUnix? = some (toDays ⟨1980, 1, 1⟩ * 86400)) ∧
      (2107 < yearOf seconds → (ofUnix seconds).Reads ⟨2107, 12, 31⟩ 23 59 58 ∧
        (ofUnix seconds).toUnix? = some (toDays ⟨2108, 1, 1⟩ * 86400 - 2))) ∧
    (∀ earlier later : Int, earlier ≤ later → (ofUnix earlier).AtMost (ofUnix later)) ∧
    (∀ stamp : DosTime,
      (stamp.toUnix?.isSome = true ↔ stamp.civilDate.Valid ∧
        stamp.hour < 24 ∧ stamp.minute < 60 ∧ stamp.second < 60) ∧
      (stamp.civilDate.Valid ↔ ∃ days, ofDays days = stamp.civilDate) ∧
      (∀ seconds, stamp.toUnix? = some seconds →
        ofDays (seconds / 86400) = stamp.civilDate ∧
        seconds % 86400 = stamp.hour * 3600 + stamp.minute * 60 + stamp.second ∧
        ofUnix seconds = stamp)) := by
  refine ⟨fun seconds => ⟨?_, fun hyear => ?_, fun hearly => ?_, fun hlate => ?_⟩,
    fun earlier later hle => ?_,
    fun stamp => ⟨isSome_toUnix?_iff, CivilDate.valid_iff_exists, fun seconds h => ?_⟩⟩
  · exact (toUnix?_eq_some_iff.mp (toUnix?_ofUnix seconds)).1
  · rw [toUnix?_ofUnix, nearest_between hyear.1 hyear.2]
  · rw [toUnix?_ofUnix, nearest_early hearly, ofUnix_early hearly]
    exact ⟨earliest_reads, rfl⟩
  · rw [toUnix?_ofUnix, nearest_late hlate, ofUnix_later (by omega), if_pos hlate]
    exact ⟨latest_reads, rfl⟩
  · exact atMost_of_toUnix?_le (toUnix?_ofUnix earlier) (toUnix?_ofUnix later) (nearest_mono hle)
  · obtain ⟨hdate, hofDay⟩ := ofDay_of_toUnix? h
    exact ⟨hdate, hofDay, ofUnix_of_toUnix? h⟩

/-- The year 2100 is none with a leap day: the last second of its February is one of the 28th. -/
theorem conversion_exact_century :
    (ofUnix 4107542399).toUnix? = some 4107542398 ∧ (ofUnix (-1)).Reads ⟨1980, 1, 1⟩ 0 0 0 ∧
    (pack ⟨2100, 2, 29⟩ 0 0 0).toUnix? = none ∧
    ofUnix 4107542398 = pack ⟨2100, 2, 28⟩ 23 59 58 := by
  obtain ⟨htime, -, hstamp⟩ := conversion_exact
  refine ⟨(htime 4107542399).2.1 (by decide), ((htime (-1)).2.2.1 (by decide)).1, ?_, ?_⟩
  · exact Option.not_isSome_iff_eq_none.mp (mt (hstamp _).1.mp (by decide))
  · exact ((hstamp (pack ⟨2100, 2, 28⟩ 23 59 58)).2.2 4107542398 (by decide)).2.2

end DosTime

end ClassicZip
