import ClassicZip.Proofs.Calendar.Days

/-!
# The calendar, whichever way divisions round

Below the number of the era no formula divides a negative number, and a year is a multiple of a
number or not whichever sign its remainder takes. So the formulas say the same with divisions that
round towards zero. `calendar_exact` collects what they say: days and dates of the calendar are
the same thing, in the same order.
-/

namespace ClassicZip.CivilDate

-- ---------------------------------------------------------------------------
-- Divisions that round towards zero
-- ---------------------------------------------------------------------------

def isLeapYearTruncating (year : Int) : Bool :=
  (year.tmod 4 == 0 && year.tmod 100 != 0) || year.tmod 400 == 0

/-- `toDays`, where only the era is rounded down. -/
def toDaysTruncating (date : CivilDate) : Int :=
  let year := if date.month ≤ 2 then date.year - 1 else date.year
  let era := year / 400
  let yearOfEra := year - era * 400
  let monthFromMarch := if date.month > 2 then date.month - 3 else date.month + 9
  let dayOfYear := (153 * monthFromMarch + 2).tdiv 5 + date.day - 1
  let dayOfEra := yearOfEra * 365 + yearOfEra.tdiv 4 - yearOfEra.tdiv 100 + dayOfYear
  era * 146097 + dayOfEra - 719468

def ofDaysTruncating (days : Int) : CivilDate :=
  let shifted := days + 719468
  let era := shifted / 146097
  let dayOfEra := shifted - era * 146097
  let yearOfEra :=
    (dayOfEra - dayOfEra.tdiv 1460 + dayOfEra.tdiv 36524 - dayOfEra.tdiv 146096).tdiv 365
  let dayOfYear := dayOfEra - (365 * yearOfEra + yearOfEra.tdiv 4 - yearOfEra.tdiv 100)
  let monthFromMarch := (5 * dayOfYear + 2).tdiv 153
  let day := dayOfYear - (153 * monthFromMarch + 2).tdiv 5 + 1
  let month := if monthFromMarch < 10 then monthFromMarch + 3 else monthFromMarch - 9
  let year := yearOfEra + era * 400 + if month ≤ 2 then 1 else 0
  ⟨year, month, day⟩

theorem tmod_beq_zero (year count : Int) : (year.tmod count == 0) = (year % count == 0) := by
  rw [Bool.eq_iff_iff, beq_iff_eq, beq_iff_eq, ← Int.dvd_iff_tmod_eq_zero, Int.dvd_iff_emod_eq_zero]

theorem isLeapYearTruncating_eq (year : Int) : isLeapYearTruncating year = isLeapYear year := by
  simp only [isLeapYearTruncating, isLeapYear, bne, tmod_beq_zero]

theorem toDaysTruncating_eq {date : CivilDate} (h : 1 ≤ date.month) :
    date.toDaysTruncating = date.toDays := by
  obtain ⟨year, month, day⟩ := date
  dsimp only at h
  simp only [toDaysTruncating, toDays]
  obtain ⟨shifted, hshifted⟩ : ∃ shifted, shifted = if month ≤ 2 then year - 1 else year := ⟨_, rfl⟩
  have hyear : 0 ≤ shifted - shifted / 400 * 400 := by omega
  have hmonth : 0 ≤ 153 * (if month > 2 then month - 3 else month + 9) + 2 := by split <;> omega
  rw [← hshifted, Int.tdiv_eq_ediv_of_nonneg hyear, Int.tdiv_eq_ediv_of_nonneg hyear,
    Int.tdiv_eq_ediv_of_nonneg hmonth]

theorem ofDaysTruncating_eq (days : Int) : ofDaysTruncating days = ofDays days := by
  obtain ⟨dayOfEra, hdayOfEra⟩ : ∃ day, day = days + 719468 - (days + 719468) / 146097 * 146097 :=
    ⟨_, rfl⟩
  obtain ⟨yearOfEra, hyearOfEra⟩ : ∃ year, year =
    (dayOfEra - dayOfEra / 1460 + dayOfEra / 36524 - dayOfEra / 146096) / 365 := ⟨_, rfl⟩
  have hday : 0 ≤ dayOfEra := by omega
  have hyear : 0 ≤ yearOfEra := by omega
  -- The day of the year is not negative, since the formula gives the year in which the day lies.
  obtain ⟨dayOfYear, hdayOfYear⟩ : ∃ day, day =
    dayOfEra - (365 * yearOfEra + yearOfEra / 4 - yearOfEra / 100) := ⟨_, rfl⟩
  have hdayOfYear_nonneg : 0 ≤ dayOfYear := by
    have hstart := (yearOfEra_bounds hday (by omega) hyearOfEra).1
    unfold yearStart at hstart
    omega
  have hmonth : 0 ≤ (5 * dayOfYear + 2) / 153 := by omega
  simp only [ofDaysTruncating, ofDays, ← hdayOfEra]
  rw [Int.tdiv_eq_ediv_of_nonneg hday, Int.tdiv_eq_ediv_of_nonneg hday,
    Int.tdiv_eq_ediv_of_nonneg hday,
    Int.tdiv_eq_ediv_of_nonneg (by omega : 0 ≤ dayOfEra - dayOfEra / 1460 + dayOfEra / 36524 -
      dayOfEra / 146096), ← hyearOfEra, Int.tdiv_eq_ediv_of_nonneg hyear,
    Int.tdiv_eq_ediv_of_nonneg hyear, ← hdayOfYear,
    Int.tdiv_eq_ediv_of_nonneg (by omega : 0 ≤ 5 * dayOfYear + 2),
    Int.tdiv_eq_ediv_of_nonneg (by omega : 0 ≤ 153 * ((5 * dayOfYear + 2) / 153) + 2)]

-- ---------------------------------------------------------------------------
-- Days and dates
-- ---------------------------------------------------------------------------

/-- Every day has a date of the calendar, of which it is the day; every date of the calendar is
that of its day; and later dates are later days. -/
theorem calendar_exact :
    (∀ days, (ofDays days).Valid ∧ (ofDays days).toDays = days) ∧
    (∀ date : CivilDate, date.Valid → ofDays date.toDays = date) ∧
    (∀ early late : CivilDate, early.Valid → late.Valid →
      (early.toDays < late.toDays ↔ early.Before late)) ∧
    (∀ days, ofDaysTruncating days = ofDays days) ∧
    (∀ date : CivilDate, date.Valid → date.toDaysTruncating = date.toDays) ∧
    ∀ year, isLeapYearTruncating year = isLeapYear year :=
  ⟨fun days => ⟨valid_ofDays days, toDays_ofDays days⟩, fun _ => ofDays_toDays,
    fun _ _ => toDays_lt_iff, ofDaysTruncating_eq, fun _ h => toDaysTruncating_eq h.1,
    isLeapYearTruncating_eq⟩

theorem calendar_exact_early_leap_day :
    Valid ⟨-400, 2, 29⟩ ∧ Valid ⟨-400, 3, 1⟩ ∧ (ofDays (-865566)).toDays = -865566 ∧
      ofDays (toDays ⟨-400, 2, 29⟩) = ⟨-400, 2, 29⟩ ∧
      toDaysTruncating ⟨-400, 2, 29⟩ = -865566 ∧
      (toDays ⟨-400, 2, 29⟩ < toDays ⟨-400, 3, 1⟩ ↔ Before ⟨-400, 2, 29⟩ ⟨-400, 3, 1⟩) := by
  have hleap : Valid ⟨-400, 2, 29⟩ := by decide
  have hnext : Valid ⟨-400, 3, 1⟩ := by decide
  obtain ⟨hdays, hdates, horder, -, htruncating, -⟩ := calendar_exact
  exact ⟨hleap, hnext, (hdays (-865566)).2, hdates _ hleap, htruncating _ hleap,
    horder _ _ hleap hnext⟩

end ClassicZip.CivilDate
