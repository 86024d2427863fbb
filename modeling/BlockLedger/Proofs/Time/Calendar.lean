import BlockLedger.Time.Calendar

/-
# Days and their dates

The date of a day leads back to the day, and it names a day of the calendar if the day lies between
the first and the last one that the calendar holds.

The year is found by dividing the days of an era by 365 after as many days have been taken away as
there have been leap days.  That this hits the right year is checked at the first and at the last
day of each of the 400 years of an era; between these days the quotient cannot fall.
-/

namespace BlockLedger

namespace Date

/-! ## The years of an era -/

/-- The days of an era before the start of one of its years.  Years start in March here. -/
def daysBefore (year : Nat) : Nat := 365 * year + year / 4 - year / 100

/-- The days of an era up to a day, but for the leap days. -/
def plainDays (day : Nat) : Nat := day - day / 1460 + day / 36524 - day / 146096

/-- The year of an era that a day of it lies in. -/
def yearOfEra (day : Nat) : Nat := plainDays day / 365

/-- The day of that year, counted from 0. -/
def dayOfYear (day : Nat) : Nat := day - daysBefore (yearOfEra day)

theorem plainDays_mono {a b : Nat} (hab : a ≤ b) (hb : b < 146097) :
    plainDays a ≤ plainDays b := by
  unfold plainDays
  omega

theorem plainDays_first : ∀ year < 400, 365 * year ≤ plainDays (daysBefore year) := by
  decide +kernel

theorem plainDays_last :
    ∀ year < 400, 0 < year → plainDays (daysBefore year - 1) < 365 * year := by
  decide +kernel

theorem yearOfEra_lt {day : Nat} (h : day < 146097) : yearOfEra day < 400 := by
  have hlast : plainDays day ≤ plainDays 146096 := plainDays_mono (by omega) (by decide)
  have hvalue : plainDays 146096 = 145999 := rfl
  unfold yearOfEra
  omega

theorem daysBefore_le {year : Nat} (h : year < 400) : daysBefore year ≤ 146096 := by
  unfold daysBefore
  omega

/-- A day does not lie before its year. -/
theorem daysBefore_yearOfEra_le {day : Nat} (h : day < 146097) :
    daysBefore (yearOfEra day) ≤ day := by
  refine Nat.le_of_not_lt fun hlt => ?_
  have hyear := yearOfEra_lt h
  have hpos : 0 < yearOfEra day := by
    refine Nat.pos_of_ne_zero fun hzero => ?_
    rw [hzero] at hlt
    exact Nat.not_lt_zero _ hlt
  -- a day before its year would not come after the last day of the year before
  have hmono : plainDays day ≤ plainDays (daysBefore (yearOfEra day) - 1) :=
    plainDays_mono (by omega) (by have := daysBefore_le hyear; omega)
  have hlast := plainDays_last _ hyear hpos
  have hdiv : 365 * yearOfEra day ≤ plainDays day := Nat.mul_div_le ..
  omega

/-- It lies before the next year, if the era has another one. -/
theorem lt_daysBefore_succ {day : Nat} (h : day < 146097) (hyear : yearOfEra day < 399) :
    day < daysBefore (yearOfEra day + 1) := by
  refine Nat.lt_of_not_le fun hle => ?_
  have hmono : plainDays (daysBefore (yearOfEra day + 1)) ≤ plainDays day :=
    plainDays_mono (by omega) h
  have hfirst := plainDays_first (yearOfEra day + 1) (by omega)
  have hdiv : plainDays day < 365 * (yearOfEra day + 1) :=
    Nat.lt_mul_div_succ _ (by decide)
  omega

theorem daysBefore_succ (year : Nat) :
    daysBefore (year + 1) = daysBefore year + 365 ∨
      daysBefore (year + 1) = daysBefore year + 366 ∧
        (year + 1) % 4 = 0 ∧ (year + 1) % 100 ≠ 0 := by
  have hfour : (year + 1) / 4 = year / 4 ∨ (year + 1) / 4 = year / 4 + 1 ∧ (year + 1) % 4 = 0 := by
    omega
  have hhundred : (year + 1) / 100 = year / 100 ∧ (year + 1) % 100 ≠ 0 ∨
      (year + 1) / 100 = year / 100 + 1 ∧ (year + 1) % 100 = 0 := by
    omega
  unfold daysBefore
  omega

/-- A year has 365 days or, if it ends in a leap day, 366. -/
theorem dayOfYear_le {day : Nat} (h : day < 146097) :
    dayOfYear day ≤ 365 ∧ (dayOfYear day = 365 →
      (yearOfEra day + 1) % 4 = 0 ∧
        ((yearOfEra day + 1) % 100 ≠ 0 ∨ (yearOfEra day + 1) % 400 = 0)) := by
  have hyear := yearOfEra_lt h
  have hle := daysBefore_yearOfEra_le h
  unfold dayOfYear
  rcases Nat.lt_or_ge (yearOfEra day) 399 with hlt | hge
  · have hnext := lt_daysBefore_succ h hlt
    have hlength := daysBefore_succ (yearOfEra day)
    omega
  · -- the last year of an era ends with the era
    obtain hlast : yearOfEra day = 399 := by omega
    rw [hlast] at hle ⊢
    have hvalue : daysBefore 399 = 145731 := rfl
    omega

/-! ## Dates -/

/-- The days since the start of the year before a month.  Months are counted from March, as 0. -/
def daysBeforeMonth (month : Nat) : Nat := (153 * month + 2) / 5

/-- The month that a day of a year lies in. -/
def monthOfYear (day : Nat) : Nat := (5 * day + 2) / 153

theorem monthOfYear_spec {day : Nat} (h : day ≤ 365) :
    monthOfYear day ≤ 11 ∧ daysBeforeMonth (monthOfYear day) ≤ day ∧
      day < daysBeforeMonth (monthOfYear day + 1) := by
  unfold monthOfYear daysBeforeMonth
  omega

/-- The number of a month in the calendar. -/
def monthNumber (month : Nat) : Nat := if month < 10 then month + 3 else month - 9

/-- The date of a day of an era, from its year, its month and the day of the month. -/
def inEra (era : Int) (year month day : Nat) : Date where
  year := year + era * 400 + (if monthNumber month ≤ 2 then 1 else 0)
  month := monthNumber month
  day := day + 1

/-- The date of a day of an era. -/
def ofEra (era : Int) (day : Nat) : Date :=
  inEra era (yearOfEra day) (monthOfYear (dayOfYear day))
    (dayOfYear day - daysBeforeMonth (monthOfYear (dayOfYear day)))

/-- Every day lies in an era of 400 years. -/
theorem exists_era (n : Int) :
    ∃ (era : Int) (day : Nat), day < 146097 ∧ n = era * 146097 + day - 719468 :=
  ⟨(n + 719468) / 146097, ((n + 719468) % 146097).toNat, by omega, by omega⟩

theorem ofDays_eq (era : Int) {day : Nat} (h : day < 146097) :
    ofDays (era * 146097 + day - 719468) = ofEra era day := by
  have hera : (era * 146097 + day - 719468 + 719468).fdiv 146097 = era := by
    rw [Int.fdiv_eq_ediv_of_nonneg _ (by decide)]
    omega
  have hday : (era * 146097 + day - 719468 + 719468 - era * 146097).toNat = day := by omega
  unfold ofDays
  simp only [hera, hday]
  rfl

theorem toDays_inEra (era : Int) {year month : Nat} (day : Nat) (hyear : year < 400)
    (hmonth : month ≤ 11) :
    (inEra era year month day).toDays =
      era * 146097 + daysBefore year + daysBeforeMonth month + day - 719468 := by
  have hmarch : (if monthNumber month ≤ 2 then (inEra era year month day).year - 1
      else (inEra era year month day).year) = year + era * 400 := by
    unfold inEra
    dsimp only
    split <;> omega
  have hnumber : (if monthNumber month ≤ 2 then (monthNumber month : Int) + 9
      else monthNumber month - 3) = month := by
    unfold monthNumber
    split <;> split <;> omega
  have hera : (year + era * 400).fdiv 400 = era := by
    rw [Int.fdiv_eq_ediv_of_nonneg _ (by decide)]
    omega
  have hmonth' : (inEra era year month day).month = monthNumber month := rfl
  unfold toDays
  simp only [hmonth', hmarch, hnumber, hera]
  unfold inEra daysBefore daysBeforeMonth
  dsimp only
  omega

/-- The date of a day leads back to it. -/
theorem toDays_ofDays (n : Int) : (ofDays n).toDays = n := by
  obtain ⟨era, day, hday, rfl⟩ := exists_era n
  have hyear := daysBefore_yearOfEra_le hday
  obtain ⟨hmonth, hbefore, -⟩ := monthOfYear_spec (dayOfYear_le hday).1
  rw [ofDays_eq era hday, ofEra, toDays_inEra era _ (yearOfEra_lt hday) hmonth]
  unfold dayOfYear at hbefore ⊢
  omega

/-! ## Dates of the calendar -/

theorem valid_iff (d : Date) :
    d.valid = true ↔ minYear ≤ d.year ∧ d.year ≤ maxYear ∧ 1 ≤ d.month ∧ d.month ≤ 12 ∧
      1 ≤ d.day ∧ d.day ≤ monthLength d.year d.month := by
  simp only [valid, Bool.and_eq_true, decide_eq_true_eq, and_assoc]

theorem leapYear_iff (y : Int) : leapYear y = true ↔ y % 4 = 0 ∧ (y % 100 ≠ 0 ∨ y % 400 = 0) := by
  unfold leapYear
  rw [Int.fmod_eq_emod_of_nonneg _ (by decide), Int.fmod_eq_emod_of_nonneg _ (by decide),
    Int.fmod_eq_emod_of_nonneg _ (by decide)]
  simp

theorem leapYear_inEra (era : Int) {year : Nat} (hfour : (year + 1) % 4 = 0)
    (hundreds : (year + 1) % 100 ≠ 0 ∨ (year + 1) % 400 = 0) :
    leapYear (year + era * 400 + 1) = true := by
  rw [leapYear_iff]
  omega

/-- A month has as many days as there are before the next one, and February has the rest. -/
theorem le_monthLength (y : Int) {month : Nat} (h : month ≤ 10) :
    daysBeforeMonth (month + 1) - daysBeforeMonth month ≤ monthLength y (monthNumber month) := by
  unfold monthLength monthNumber daysBeforeMonth
  split <;> split <;> split <;> omega

theorem monthNumber_spec {month : Nat} (h : month ≤ 11) :
    1 ≤ monthNumber month ∧ monthNumber month ≤ 12 := by
  unfold monthNumber
  split <;> omega

/-- The days before a year that starts in March, over all eras. -/
theorem daysBefore_inEra (era : Int) {year : Nat} (h : year < 400) :
    era * 146097 + daysBefore year =
      365 * (year + era * 400) + (year + era * 400) / 4 - (year + era * 400) / 100 +
        (year + era * 400) / 400 := by
  unfold daysBefore
  omega

/-- A day that does not lie before the calendar, by the year that starts in March before it. -/
theorem first_year_le {year : Int} {day : Nat} (hday : day ≤ 365)
    (h : (Date.mk minYear 1 1).toDays ≤
      365 * year + year / 4 - year / 100 + year / 400 + day - 719468) :
    minYear ≤ year ∨ year + 1 = minYear ∧ 306 ≤ day := by
  have hfirst : (Date.mk minYear 1 1).toDays = -96465292 := by decide
  rw [hfirst] at h
  unfold minYear
  rcases Int.lt_trichotomy year (-262144) with hlt | rfl | hgt <;> omega

theorem le_last_year {year : Int} {day : Nat}
    (h : 365 * year + year / 4 - year / 100 + year / 400 + day - 719468 ≤
      (Date.mk maxYear 12 31).toDays) :
    year < maxYear ∨ year = maxYear ∧ day < 306 := by
  have hlast : (Date.mk maxYear 12 31).toDays = 95026236 := by decide
  rw [hlast] at h
  unfold maxYear
  rcases Int.lt_trichotomy year 262142 with hlt | rfl | hgt <;> omega

/-- January and February come last. -/
theorem monthNumber_le_two {day : Nat} (h : day ≤ 365) :
    monthNumber (monthOfYear day) ≤ 2 ↔ 306 ≤ day := by
  unfold monthNumber monthOfYear
  split <;> omega

/-- No day comes after the end of its month. -/
theorem ofEra_day_le (era : Int) {day : Nat} (h : day < 146097) :
    (ofEra era day).day ≤ monthLength (ofEra era day).year (ofEra era day).month := by
  obtain ⟨hlength, hleap⟩ := dayOfYear_le h
  obtain ⟨hmonth, hle, hlt⟩ := monthOfYear_spec hlength
  show dayOfYear day - daysBeforeMonth (monthOfYear (dayOfYear day)) + 1 ≤
    monthLength (yearOfEra day + era * 400 +
      if monthNumber (monthOfYear (dayOfYear day)) ≤ 2 then 1 else 0)
      (monthNumber (monthOfYear (dayOfYear day)))
  rcases Nat.lt_or_ge (monthOfYear (dayOfYear day)) 11 with hother | hfebruary
  · refine Nat.le_trans ?_ (le_monthLength _ (Nat.le_of_lt_succ hother))
    omega
  · -- February comes last, and only a leap year has a day 365
    obtain hfebruary : monthOfYear (dayOfYear day) = 11 := by omega
    have htwo : monthNumber 11 = 2 := rfl
    have hstart : daysBeforeMonth 11 = 337 := rfl
    rw [hfebruary, htwo, hstart, if_pos (Nat.le_refl 2), monthLength, if_pos rfl]
    split
    · omega
    · rename_i hcommon
      have hne : dayOfYear day ≠ 365 := fun heq =>
        hcommon (leapYear_inEra era (hleap heq).1 (hleap heq).2)
      omega

/-- Between its first and its last day, the calendar has a date for every day. -/
theorem valid_ofDays {n : Int} (hmin : (Date.mk minYear 1 1).toDays ≤ n)
    (hmax : n ≤ (Date.mk maxYear 12 31).toDays) : (ofDays n).valid = true := by
  obtain ⟨era, day, hday, rfl⟩ := exists_era n
  have hbefore := daysBefore_yearOfEra_le hday
  have hyear := daysBefore_inEra era (yearOfEra_lt hday)
  obtain ⟨hlength, -⟩ := dayOfYear_le hday
  have hjanuary := monthNumber_le_two hlength
  obtain ⟨hnumber, hnumber'⟩ := monthNumber_spec (monthOfYear_spec hlength).1
  have hdays : era * 146097 + day - 719468 =
      era * 146097 + daysBefore (yearOfEra day) + dayOfYear day - 719468 := by
    unfold dayOfYear
    omega
  rw [hdays, hyear] at hmin hmax
  have hfirst := first_year_le hlength hmin
  have hlast := le_last_year hmax
  rw [ofDays_eq era hday, valid_iff]
  refine ⟨?_, ?_, hnumber, hnumber', Nat.le_add_left .., ofEra_day_le era hday⟩
  · show minYear ≤ yearOfEra day + era * 400 +
      if monthNumber (monthOfYear (dayOfYear day)) ≤ 2 then 1 else 0
    split <;> omega
  · show yearOfEra day + era * 400 +
      (if monthNumber (monthOfYear (dayOfYear day)) ≤ 2 then 1 else 0) ≤ maxYear
    split <;> omega

end Date

end BlockLedger
