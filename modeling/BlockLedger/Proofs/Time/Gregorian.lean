import BlockLedger.Proofs.Time.Calendar
import Mathlib.Order.Monotone.Basic
import Mathlib.Tactic.IntervalCases

/-
# The calendar, day by day

What the calendar is can be told without a formula: after a day comes the next day of its month, or
else the first day of the next month, or of the next year.  Counted in both directions from the
start of 1970, this gives every day one date, and it is the date that is computed from the number of
the day.
-/

namespace BlockLedger

namespace Date

/-- The numbers name a day, of whatever year. -/
structure Proper (d : Date) : Prop where
  month_pos : 1 ≤ d.month
  month_le : d.month ≤ 12
  day_pos : 1 ≤ d.day
  day_le : d.day ≤ monthLength d.year d.month

/-- The day after. -/
def next (d : Date) : Date :=
  if d.day < monthLength d.year d.month then { d with day := d.day + 1 }
  else if d.month < 12 then { d with month := d.month + 1, day := 1 }
  else ⟨d.year + 1, 1, 1⟩

/-- The date on which a day falls, counted from the start of 1970. -/
inductive Falls : Int → Date → Prop
  | start : Falls 0 ⟨1970, 1, 1⟩
  | after {n : Int} {d : Date} (h : Falls n d) : Falls (n + 1) d.next
  | before {n : Int} {d : Date} (h : Falls (n + 1) d.next) (hd : d.Proper) : Falls n d

theorem proper_of_valid {d : Date} (h : d.valid = true) : d.Proper := by
  obtain ⟨-, -, hmonth, hmonth', hday, hday'⟩ := (valid_iff d).1 h
  exact ⟨hmonth, hmonth', hday, hday'⟩

/-! ## Years that start in March -/

/-- The days before a year that starts in March. -/
def yearStart (y : Int) : Int := 365 * y + y / 4 - y / 100 + y / 400

theorem yearStart_succ (y : Int) :
    yearStart (y + 1) = yearStart y + 365 + if leapYear (y + 1) then 1 else 0 := by
  unfold yearStart
  split
  · rename_i h
    rw [leapYear_iff] at h
    omega
  · rename_i h
    rw [leapYear_iff] at h
    omega

theorem yearStart_mono {y y' : Int} (h : y ≤ y') : yearStart y ≤ yearStart y' := by
  have hmono : Monotone yearStart := by
    refine monotone_int_of_le_succ fun y => ?_
    rw [yearStart_succ]
    split <;> omega
  exact hmono h

/-- The year that started in the March before a day. -/
def marchYear (d : Date) : Int := if d.month ≤ 2 then d.year - 1 else d.year

/-- The months since that March. -/
def marchMonth (d : Date) : Nat := if d.month ≤ 2 then d.month + 9 else d.month - 3

/-- The days since the start of that March. -/
def marchDay (d : Date) : Nat := daysBeforeMonth d.marchMonth + (d.day - 1)

variable {d d' : Date}

theorem toDays_eq (hd : d.Proper) : d.toDays = yearStart d.marchYear + d.marchDay - 719468 := by
  obtain ⟨hmonth, -, hday, -⟩ := hd
  have hera := Int.fdiv_eq_ediv_of_nonneg d.marchYear (by decide : (0 : Int) ≤ 400)
  have hnumber : (if d.month ≤ 2 then (d.month : Int) + 9 else d.month - 3) = d.marchMonth := by
    unfold marchMonth
    split <;> omega
  have hyear : (if d.month ≤ 2 then d.year - 1 else d.year) = d.marchYear := rfl
  unfold toDays
  simp only [hnumber, hyear, hera]
  unfold marchDay daysBeforeMonth yearStart
  omega

theorem marchMonth_spec (hd : d.Proper) :
    d.marchMonth ≤ 11 ∧ monthNumber d.marchMonth = d.month ∧ (d.marchMonth = 11 ↔ d.month = 2) := by
  have hfirst := hd.month_pos
  have hlast := hd.month_le
  unfold marchMonth monthNumber
  split <;> split <;> omega

/-- The last day of a month comes before the next month. -/
theorem marchDay_lt_month (hd : d.Proper) : d.marchDay < daysBeforeMonth (d.marchMonth + 1) := by
  obtain ⟨y, m, day⟩ := d
  obtain ⟨hfirst, hlast, hpos, hday⟩ := hd
  dsimp only at hfirst hlast hpos hday
  have hfebruary : (if leapYear y then 29 else 28) ≤ 29 := by split <;> decide
  unfold monthLength at hday
  unfold marchDay marchMonth daysBeforeMonth
  dsimp only
  interval_cases m <;> simp at hday ⊢ <;> omega

/-- A year that starts in March ends with a February, before which there are 337 days. -/
theorem yearStart_february (y : Int) :
    yearStart y = yearStart (y - 1) + 337 + monthLength y 2 := by
  have hyear := yearStart_succ (y - 1)
  rw [Int.sub_add_cancel] at hyear
  rw [monthLength, if_pos rfl, hyear]
  split <;> omega

theorem march_of_february (hfebruary : d.month = 2) :
    d.marchYear = d.year - 1 ∧ d.marchDay = 337 + (d.day - 1) := by
  obtain ⟨y, m, day⟩ := d
  obtain rfl : m = 2 := hfebruary
  refine ⟨rfl, ?_⟩
  show daysBeforeMonth 11 + (day - 1) = _
  rw [daysBeforeMonth]

/-- The last day of February comes before the next year. -/
theorem marchDay_lt_year (hd : d.Proper) :
    yearStart d.marchYear + d.marchDay < yearStart (d.marchYear + 1) := by
  obtain ⟨hmonth, -, htwo⟩ := marchMonth_spec hd
  have hday := marchDay_lt_month hd
  by_cases hfebruary : d.month = 2
  · obtain ⟨hyear, hnumber⟩ := march_of_february hfebruary
    have hpos := hd.day_pos
    have hlength := hd.day_le
    rw [hfebruary] at hlength
    rw [hyear, hnumber, Int.sub_add_cancel, yearStart_february d.year]
    omega
  · have hother : d.marchMonth ≤ 10 := by omega
    rw [yearStart_succ]
    unfold daysBeforeMonth at hday
    split <;> omega

theorem monthOfYear_eq {month day : Nat} (hle : daysBeforeMonth month ≤ day)
    (hlt : day < daysBeforeMonth (month + 1)) : monthOfYear day = month := by
  unfold daysBeforeMonth at hle hlt
  unfold monthOfYear
  omega

/-- No two dates are the same day. -/
theorem eq_of_toDays_eq (hd : d.Proper) (hd' : d'.Proper) (h : d.toDays = d'.toDays) : d = d' := by
  have hdays := toDays_eq hd
  have hdays' := toDays_eq hd'
  have hlt := marchDay_lt_year hd
  have hlt' := marchDay_lt_year hd'
  have hyear : d.marchYear = d'.marchYear := by
    -- otherwise one of the days comes before the year of the other one
    rcases Int.lt_trichotomy d.marchYear d'.marchYear with hyear | hyear | hyear
    · have := yearStart_mono (Int.add_one_le_of_lt hyear)
      omega
    · exact hyear
    · have := yearStart_mono (Int.add_one_le_of_lt hyear)
      omega
  have hday : d.marchDay = d'.marchDay := by
    rw [hyear] at hdays
    omega
  have hmonth : d.marchMonth = d'.marchMonth := by
    rw [← monthOfYear_eq (Nat.le_add_right ..) (marchDay_lt_month hd),
      ← monthOfYear_eq (Nat.le_add_right ..) (marchDay_lt_month hd')]
    exact congrArg monthOfYear hday
  have hnumbers : d.month = d'.month := by
    rw [← (marchMonth_spec hd).2.1, ← (marchMonth_spec hd').2.1, hmonth]
  obtain ⟨y, m, day⟩ := d
  obtain ⟨y', m', day'⟩ := d'
  have hpos := hd.day_pos
  have hpos' := hd'.day_pos
  unfold marchDay at hday
  unfold marchYear at hyear
  rw [hmonth] at hday
  dsimp only at *
  subst hnumbers
  rw [mk.injEq]
  refine ⟨?_, rfl, by omega⟩
  split at hyear <;> omega

/-- The days of the years that the calendar holds. -/
theorem toDays_range (hd : d.Proper) (hfirst : minYear ≤ d.year) (hlast : d.year ≤ maxYear) :
    (Date.mk minYear 1 1).toDays ≤ d.toDays ∧ d.toDays ≤ (Date.mk maxYear 12 31).toDays := by
  have hmin : (Date.mk minYear 1 1).toDays = yearStart (minYear - 1) + 306 - 719468 := by decide
  have hmax : (Date.mk maxYear 12 31).toDays = yearStart maxYear + 305 - 719468 := by decide
  have hmonth := marchDay_lt_month hd
  have hyear := marchDay_lt_year hd
  have hmonth' := hd.month_le
  rw [hmin, hmax, toDays_eq hd]
  by_cases hwinter : d.month ≤ 2
  · -- the last months of a year that started in the year before
    have hmarch : d.marchYear = d.year - 1 := if_pos hwinter
    have hnumber : d.marchMonth = d.month + 9 := if_pos hwinter
    have hle : yearStart (minYear - 1) ≤ yearStart d.marchYear :=
      yearStart_mono (by omega)
    have hle' : yearStart (d.marchYear + 1) ≤ yearStart maxYear :=
      yearStart_mono (by omega)
    have hday : 306 ≤ d.marchDay := by
      unfold marchDay daysBeforeMonth
      have := hd.month_pos
      omega
    omega
  · have hmarch : d.marchYear = d.year := if_neg hwinter
    have hnumber : d.marchMonth = d.month - 3 := if_neg hwinter
    have hstart : yearStart minYear = yearStart (minYear - 1) + 365 := by decide
    have hle : yearStart minYear ≤ yearStart d.marchYear :=
      yearStart_mono (by omega)
    have hle' : yearStart d.marchYear ≤ yearStart maxYear :=
      yearStart_mono (by omega)
    have hday : d.marchDay < 306 := by
      unfold daysBeforeMonth at hmonth
      omega
    omega

/-! ## From day to day -/

theorem proper_ofDays (n : Int) : (ofDays n).Proper := by
  obtain ⟨era, day, hday, rfl⟩ := exists_era n
  rw [ofDays_eq era hday]
  obtain ⟨hmonth, hmonth'⟩ := monthNumber_spec (monthOfYear_spec (dayOfYear_le hday).1).1
  exact ⟨hmonth, hmonth', Nat.le_add_left .., ofEra_day_le era hday⟩

/-- The day of a date leads back to it. -/
theorem ofDays_toDays (hd : d.Proper) : ofDays d.toDays = d :=
  eq_of_toDays_eq (proper_ofDays _) hd (toDays_ofDays _)

theorem monthLength_pos (y : Int) (m : Nat) : 1 ≤ monthLength y m := by
  unfold monthLength
  split <;> split <;> decide

theorem monthLength_le (y : Int) (m : Nat) : monthLength y m ≤ 31 := by
  unfold monthLength
  split <;> split <;> decide

/-- After the last day of a month comes the next month. -/
theorem marchDay_last (hd : d.Proper) (hother : d.month ≠ 2)
    (hlast : monthLength d.year d.month ≤ d.day) :
    d.marchDay + 1 = daysBeforeMonth (d.marchMonth + 1) := by
  refine Nat.le_antisymm (marchDay_lt_month hd) ?_
  obtain ⟨hmonth, hnumber, hfebruary⟩ := marchMonth_spec hd
  have hother' : d.marchMonth ≤ 10 := by omega
  have hlength := le_monthLength d.year hother'
  rw [hnumber] at hlength
  unfold marchDay
  omega

theorem Proper.next (hd : d.Proper) : d.next.Proper := by
  obtain ⟨hmonth, hmonth', hday, hday'⟩ := hd
  unfold Date.next
  split
  · rename_i hlt
    exact ⟨hmonth, hmonth', Nat.le_add_left .., hlt⟩
  · split
    · rename_i hlt
      exact ⟨Nat.le_add_left .., hlt, Nat.le_refl 1, monthLength_pos ..⟩
    · exact ⟨Nat.le_refl 1, Nat.le_add_left 1 11, Nat.le_refl 1, monthLength_pos ..⟩

/-- In a year that starts in March every day but the last one is followed by another one. -/
theorem march_next (hd : d.Proper) (h : d.month = 2 → d.day < monthLength d.year d.month) :
    d.next.marchYear = d.marchYear ∧ d.next.marchDay = d.marchDay + 1 := by
  unfold next
  split
  · refine ⟨rfl, ?_⟩
    show daysBeforeMonth d.marchMonth + d.day = daysBeforeMonth d.marchMonth + (d.day - 1) + 1
    have := hd.day_pos
    omega
  · rename_i hend
    have hother : d.month ≠ 2 := fun hfebruary => hend (h hfebruary)
    have hday := marchDay_last hd hother (Nat.le_of_not_lt hend)
    split
    · -- another month starts
      have hnext : marchMonth { d with month := d.month + 1, day := 1 } = d.marchMonth + 1 := by
        show (if d.month + 1 ≤ 2 then d.month + 1 + 9 else d.month + 1 - 3) = _
        have hmonth := hd.month_pos
        unfold marchMonth
        split <;> split <;> omega
      constructor
      · show (if d.month + 1 ≤ 2 then d.year - 1 else d.year) = _
        unfold marchYear
        split <;> split <;> omega
      · rw [marchDay, hnext, hday]
        rfl
    · -- January starts
      have hdecember : d.month = 12 := by
        have hmonth := hd.month_le
        omega
      have hmarch : d.marchMonth = 9 := by rw [marchMonth, hdecember]; rfl
      have hyear : d.marchYear = d.year := by rw [marchYear, hdecember]; rfl
      rw [hday, hmarch, hyear]
      exact ⟨Int.add_sub_cancel .., rfl⟩

/-- After February a year starts. -/
theorem march_first (hfebruary : d.month = 2) (hend : ¬ d.day < monthLength d.year d.month) :
    d.next.marchYear = d.year ∧ d.next.marchDay = 0 := by
  rw [next, if_neg hend, hfebruary, if_pos (by decide)]
  exact ⟨rfl, (by decide : daysBeforeMonth 0 + (1 - 1) = 0)⟩

theorem toDays_next (hd : d.Proper) : d.next.toDays = d.toDays + 1 := by
  rw [toDays_eq hd, toDays_eq hd.next]
  by_cases hend : d.month = 2 ∧ ¬ d.day < monthLength d.year d.month
  · obtain ⟨hfebruary, hend⟩ := hend
    obtain ⟨hyear, hday⟩ := march_of_february hfebruary
    obtain ⟨hyear', hday'⟩ := march_first hfebruary hend
    have hpos := hd.day_pos
    have hlength := hd.day_le
    rw [hfebruary] at hend hlength
    rw [hyear, hday, hyear', hday', yearStart_february d.year]
    omega
  · obtain ⟨hyear, hday⟩ := march_next hd (by simpa using hend)
    rw [hyear, hday]
    omega

/-- The day after a day has the date after its date. -/
theorem ofDays_succ (n : Int) : ofDays (n + 1) = (ofDays n).next := by
  have hproper := proper_ofDays n
  refine eq_of_toDays_eq (proper_ofDays _) hproper.next ?_
  rw [toDays_next hproper, toDays_ofDays, toDays_ofDays]

theorem falls_ofDays (n : Int) : Falls n (ofDays n) := by
  induction n using Int.induction_on with
  | zero => exact .start
  | succ n ih =>
    rw [ofDays_succ]
    exact ih.after
  | pred n ih =>
    refine .before ?_ (proper_ofDays _)
    rwa [← ofDays_succ, Int.sub_add_cancel]

/-- The calendar gives every day one date. -/
theorem falls_iff {n : Int} : Falls n d ↔ d = ofDays n := by
  constructor
  · intro h
    induction h with
    | start => rfl
    | after _ ih => rw [ih, ofDays_succ]
    | before _ hd ih =>
      rw [← ofDays_toDays hd]
      rename_i n d _
      have hdays : d.next.toDays = n + 1 := by rw [ih, toDays_ofDays]
      rw [toDays_next hd] at hdays
      exact congrArg ofDays (add_right_cancel hdays)
  · rintro rfl
    exact falls_ofDays n

end Date

end BlockLedger
