import ClassicZip.Calendar

/-!
# Days and dates

Every day has one date of the calendar, and every date of the calendar is one day's: `ofDays` and
`toDays` undo each other, and later days have later dates. The formulas count years and months from
March, so that a leap day is the last day of its year; what they say of such years is settled first.
-/

namespace ClassicZip.CivilDate

-- ---------------------------------------------------------------------------
-- Years and months from March
-- ---------------------------------------------------------------------------

/-- Days from the first of March of the year 0 to the first of March of another year. -/
def yearStart (year : Int) : Int := 365 * year + year / 4 - year / 100 + year / 400

/-- Days of a year in front of a month, both counted from March. -/
def monthStart (month : Int) : Int := (153 * month + 2) / 5

def monthEnd (year month : Int) : Int :=
  if month = 11 then yearStart (year + 1) - yearStart year else monthStart (month + 1)

/-- The date with this month of a year from March and this day of the month, both counted from
zero. -/
def ofMarch (year month day : Int) : CivilDate :=
  if month < 10 then ⟨year, month + 3, day + 1⟩ else ⟨year + 1, month - 9, day + 1⟩

/-- A day of an era lies in the year that the formula gives. -/
theorem yearOfEra_bounds {day year : Int} (hday : 0 ≤ day) (hera : day < 146097)
    (hyear : year = (day - day / 1460 + day / 36524 - day / 146096) / 365) :
    yearStart year ≤ day ∧ day < yearStart (year + 1) := by
  unfold yearStart
  -- The last day of an era is the only one in a fifth century.
  rcases (by omega : day = 146096 ∨ day < 146096) with rfl | hlast
  · omega
  obtain ⟨century, hcentury⟩ : ∃ century, century = day / 36524 := ⟨_, rfl⟩
  obtain ⟨leaps, hleaps⟩ : ∃ leaps, leaps = day / 1460 := ⟨_, rfl⟩
  rw [← hleaps, ← hcentury, (by omega : day / 146096 = 0)] at hyear
  have hyears : year / 100 = century := by
    rcases (by omega : century = 0 ∨ century = 1 ∨ century = 2 ∨ century = 3) with h | h | h | h <;>
      omega
  have hbefore : year / 4 ≤ leaps := by omega
  have hbehind : leaps ≤ (year + 1) / 4 := by omega
  have hnext : (year + 1) / 100 = century ∨ year + 1 = 100 * (century + 1) := by omega
  omega

theorem yearStart_era (era year : Int) :
    yearStart (year + era * 400) = yearStart year + era * 146097 := by
  unfold yearStart
  omega

theorem yearStart_mono {early late : Int} (h : early ≤ late) : yearStart early ≤ yearStart late := by
  unfold yearStart
  omega

theorem monthStart_mono {early late : Int} (h : early ≤ late) :
    monthStart early ≤ monthStart late := by
  unfold monthStart
  omega

/-- A day of a year lies in the month that the formula gives. -/
theorem monthFromMarch_bounds {day month : Int} (hday : 0 ≤ day) (hyear : day ≤ 365)
    (hmonth : month = (5 * day + 2) / 153) :
    0 ≤ month ∧ month ≤ 11 ∧ monthStart month ≤ day ∧ day < monthStart (month + 1) := by
  unfold monthStart
  omega

/-- The leap day of the next year is the last day of the year from March. -/
theorem yearStart_succ (year : Int) :
    yearStart (year + 1) = yearStart year + if isLeapYear (year + 1) then 366 else 365 := by
  have hleap : isLeapYear (year + 1) = true ↔
      (year + 1) % 4 = 0 ∧ (year + 1) % 100 ≠ 0 ∨ (year + 1) % 400 = 0 := by
    simp [isLeapYear]
  unfold yearStart
  split
  · rename_i h
    rw [hleap] at h
    omega
  · rename_i h
    rw [hleap] at h
    omega

section
variable {year month day : Int}

theorem ofMarch_early (h : month < 10) : ofMarch year month day = ⟨year, month + 3, day + 1⟩ :=
  if_pos h

theorem ofMarch_late (h : 10 ≤ month) : ofMarch year month day = ⟨year + 1, month - 9, day + 1⟩ :=
  if_neg (Int.not_lt.mpr h)

theorem toDays_ofMarch (hfirst : 0 ≤ month) (hlast : month ≤ 11) :
    (ofMarch year month day).toDays = yearStart year + monthStart month + day - 719468 := by
  rcases Int.lt_or_le month 10 with hearly | hlate
  · simp only [ofMarch_early hearly, toDays, yearStart, monthStart]
    rw [if_neg (by omega), if_pos (by omega)]
    omega
  · simp only [ofMarch_late hlate, toDays, yearStart, monthStart]
    rw [if_pos (by omega), if_neg (by omega)]
    omega

/-- The months have the lengths that lie between their starts, and February has what is left of the
year. -/
theorem daysInMonth_ofMarch (year day : Int) (hfirst : 0 ≤ month) (hlast : month ≤ 11) :
    daysInMonth (ofMarch year month day).year (ofMarch year month day).month =
      monthEnd year month - monthStart month := by
  rcases (by omega : month = 11 ∨ month < 11) with rfl | hless
  · rw [ofMarch_late (by decide), monthEnd, if_pos rfl, yearStart_succ]
    show (if isLeapYear (year + 1) then 29 else 28) = _ - 337
    split <;> omega
  · rw [monthEnd, if_neg (by omega)]
    rcases (by omega : month = 0 ∨ month = 1 ∨ month = 2 ∨ month = 3 ∨ month = 4 ∨ month = 5 ∨
      month = 6 ∨ month = 7 ∨ month = 8 ∨ month = 9 ∨ month = 10) with
      rfl | rfl | rfl | rfl | rfl | rfl | rfl | rfl | rfl | rfl | rfl <;> rfl

theorem valid_ofMarch_iff (hfirst : 0 ≤ month) (hlast : month ≤ 11) :
    (ofMarch year month day).Valid ↔ 0 ≤ day ∧ monthStart month + day < monthEnd year month := by
  have hlength := daysInMonth_ofMarch year day hfirst hlast
  rw [Valid, hlength]
  rcases Int.lt_or_le month 10 with hearly | hlate
  · simp only [ofMarch_early hearly]
    omega
  · simp only [ofMarch_late hlate]
    omega

theorem monthEnd_le (year : Int) (hfirst : 0 ≤ month) (hlast : month ≤ 11) :
    monthEnd year month ≤ yearStart (year + 1) - yearStart year := by
  unfold monthEnd yearStart monthStart
  split <;> omega

end

-- ---------------------------------------------------------------------------
-- Dates of the calendar
-- ---------------------------------------------------------------------------

def Before (early late : CivilDate) : Prop :=
  early.year < late.year ∨ early.year = late.year ∧
    (early.month < late.month ∨ early.month = late.month ∧ early.day < late.day)

theorem before_or_eq_or_before (one other : CivilDate) :
    one.Before other ∨ one = other ∨ other.Before one := by
  obtain ⟨year, month, day⟩ := one
  obtain ⟨year', month', day'⟩ := other
  simp only [Before, CivilDate.mk.injEq]
  omega

theorem exists_ofMarch {date : CivilDate} (h : date.Valid) :
    ∃ year month day, 0 ≤ month ∧ month ≤ 11 ∧ date = ofMarch year month day := by
  obtain ⟨year, month, day⟩ := date
  obtain ⟨hfirst, hlast, -⟩ := h
  dsimp only at hfirst hlast
  rcases Int.lt_or_le 2 month with hmarch | hjanuary
  · refine ⟨year, month - 3, day - 1, by omega, by omega, ?_⟩
    rw [ofMarch_early (by omega), Int.sub_add_cancel, Int.sub_add_cancel]
  · refine ⟨year - 1, month + 9, day - 1, by omega, by omega, ?_⟩
    rw [ofMarch_late (by omega), Int.sub_add_cancel, Int.sub_add_cancel, Int.add_sub_cancel]

/-- The order of dates is the order of their years from March, and of months and days in these. -/
theorem ofMarch_before {year year' month month' day day' : Int} (hfirst : 0 ≤ month)
    (hlast : month ≤ 11) (hfirst' : 0 ≤ month') (hlast' : month' ≤ 11)
    (h : (ofMarch year month day).Before (ofMarch year' month' day')) :
    year < year' ∨ year = year' ∧ (month < month' ∨ month = month' ∧ day < day') := by
  unfold ofMarch Before at h
  split at h <;> split at h <;> dsimp only at h <;> omega

theorem toDays_lt {early late : CivilDate} (hearly : early.Valid) (hlate : late.Valid)
    (h : early.Before late) : early.toDays < late.toDays := by
  obtain ⟨year, month, day, hfirst, hlast, rfl⟩ := exists_ofMarch hearly
  obtain ⟨year', month', day', hfirst', hlast', rfl⟩ := exists_ofMarch hlate
  obtain ⟨-, hstop⟩ := (valid_ofMarch_iff hfirst hlast).mp hearly
  obtain ⟨hstart, -⟩ := (valid_ofMarch_iff hfirst' hlast').mp hlate
  rw [toDays_ofMarch hfirst hlast, toDays_ofMarch hfirst' hlast']
  rcases ofMarch_before hfirst hlast hfirst' hlast' h with hyear | ⟨rfl, hmonth | ⟨rfl, hday⟩⟩
  · have hend := monthEnd_le year hfirst hlast
    have hyears := yearStart_mono (Int.add_one_le_of_lt hyear)
    have hmonths := monthStart_mono hfirst'
    have hzero : monthStart 0 = 0 := rfl
    omega
  · rw [monthEnd, if_neg (by omega)] at hstop
    have hmonths := monthStart_mono (Int.add_one_le_of_lt hmonth)
    omega
  · omega

theorem ofDays_eq_ofMarch (days : Int) : ∃ year month day, 0 ≤ month ∧ month ≤ 11 ∧ 0 ≤ day ∧
    monthStart month + day < monthEnd year month ∧
    days + 719468 = yearStart year + monthStart month + day ∧
    ofDays days = ofMarch year month day := by
  obtain ⟨era, hera⟩ : ∃ era, era = (days + 719468) / 146097 := ⟨_, rfl⟩
  obtain ⟨dayOfEra, hdayOfEra⟩ : ∃ day, day = days + 719468 - era * 146097 := ⟨_, rfl⟩
  obtain ⟨yearOfEra, hyearOfEra⟩ : ∃ year, year =
    (dayOfEra - dayOfEra / 1460 + dayOfEra / 36524 - dayOfEra / 146096) / 365 := ⟨_, rfl⟩
  have hless : yearOfEra < 400 := by omega
  obtain ⟨hstart, hstop⟩ := yearOfEra_bounds (by omega) (by omega) hyearOfEra
  -- Within an era no year behind the first is a multiple of 400.
  obtain ⟨dayOfYear, hdayOfYear⟩ : ∃ day, day = dayOfEra - yearStart yearOfEra := ⟨_, rfl⟩
  have hformula : dayOfYear = dayOfEra - (365 * yearOfEra + yearOfEra / 4 - yearOfEra / 100) := by
    unfold yearStart at hdayOfYear
    omega
  have hleap := yearStart_succ yearOfEra
  obtain ⟨month, hmonth⟩ : ∃ month, month = (5 * dayOfYear + 2) / 153 := ⟨_, rfl⟩
  obtain ⟨hfirst, hlast, hin, hout⟩ :=
    monthFromMarch_bounds (by omega) (by split at hleap <;> omega) hmonth
  have hyear := yearStart_era era yearOfEra
  refine ⟨yearOfEra + era * 400, month, dayOfYear - monthStart month, hfirst, hlast, by omega,
    ?_, by omega, ?_⟩
  · rw [monthEnd]
    split
    · have hnext := yearStart_era era (yearOfEra + 1)
      rw [Int.add_right_comm yearOfEra, hyear]
      omega
    · omega
  · simp only [ofDays, ofMarch, ← hera, ← hdayOfEra, ← hyearOfEra, ← hformula, ← hmonth, monthStart]
    split
    · rw [if_neg (by omega), Int.add_zero]
    · rw [if_pos (by omega)]

theorem valid_ofDays (days : Int) : (ofDays days).Valid := by
  obtain ⟨year, month, day, hfirst, hlast, hday, hmonth, -, hdate⟩ := ofDays_eq_ofMarch days
  rw [hdate, valid_ofMarch_iff hfirst hlast]
  exact ⟨hday, hmonth⟩

theorem toDays_ofDays (days : Int) : (ofDays days).toDays = days := by
  obtain ⟨year, month, day, hfirst, hlast, -, -, hdays, hdate⟩ := ofDays_eq_ofMarch days
  rw [hdate, toDays_ofMarch hfirst hlast, ← hdays, Int.add_sub_cancel]

theorem ofDays_toDays {date : CivilDate} (h : date.Valid) : ofDays date.toDays = date := by
  have hvalid := valid_ofDays date.toDays
  have hsame := toDays_ofDays date.toDays
  rcases before_or_eq_or_before (ofDays date.toDays) date with hless | heq | hless
  · exact absurd (toDays_lt hvalid h hless) (by omega)
  · exact heq
  · exact absurd (toDays_lt h hvalid hless) (by omega)

theorem valid_iff_exists {date : CivilDate} : date.Valid ↔ ∃ days, ofDays days = date := by
  constructor
  · exact fun h => ⟨date.toDays, ofDays_toDays h⟩
  · rintro ⟨days, rfl⟩
    exact valid_ofDays days

theorem toDays_lt_iff {early late : CivilDate} (hearly : early.Valid) (hlate : late.Valid) :
    early.toDays < late.toDays ↔ early.Before late := by
  refine ⟨fun h => ?_, toDays_lt hearly hlate⟩
  rcases before_or_eq_or_before early late with hless | rfl | hless
  · exact hless
  · exact absurd h (Int.lt_irrefl _)
  · exact absurd (toDays_lt hlate hearly hless) (Int.lt_asymm h)

theorem year_ofDays_lt_iff {days year : Int} :
    (ofDays days).year < year ↔ days < toDays ⟨year, 1, 1⟩ := by
  have hvalid := valid_ofDays days
  have hstart : Valid ⟨year, 1, 1⟩ := by simp [Valid, daysInMonth]
  have hless := toDays_lt_iff hvalid hstart
  rw [toDays_ofDays] at hless
  rw [hless, Before]
  obtain ⟨hmonth, -, hday, -⟩ := hvalid
  dsimp only
  omega

end ClassicZip.CivilDate
