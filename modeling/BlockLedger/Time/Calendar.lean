/-
# The calendar

Days are counted from 1970 and named by the proleptic Gregorian calendar, with a year 0 and
negative years before it.  The count goes by eras of 400 years that start in March, so that the
leap day is the last day of a year.
-/

namespace BlockLedger

/-- A day of the calendar. -/
structure Date where
  year : Int
  /-- The month, from 1 to 12. -/
  month : Nat
  /-- The day of the month, from 1. -/
  day : Nat
  deriving DecidableEq, Inhabited, Repr

namespace Date

/-- Whether a year has a leap day. -/
def leapYear (y : Int) : Bool := y.fmod 4 == 0 && (y.fmod 100 != 0 || y.fmod 400 == 0)

/-- The number of days of a month. -/
def monthLength (y : Int) (m : Nat) : Nat :=
  if m = 2 then if leapYear y then 29 else 28
  else if m = 4 ∨ m = 6 ∨ m = 9 ∨ m = 11 then 30 else 31

/-- The first year that the calendar holds. -/
def minYear : Int := -262143

/-- The last year that the calendar holds. -/
def maxYear : Int := 262142

/-- Whether the three numbers name a day that the calendar holds. -/
def valid (d : Date) : Bool :=
  minYear ≤ d.year && d.year ≤ maxYear && 1 ≤ d.month && d.month ≤ 12 && 1 ≤ d.day
    && d.day ≤ monthLength d.year d.month

/-- The number of days from the start of 1970 to a day. -/
def toDays (d : Date) : Int :=
  let y := if d.month ≤ 2 then d.year - 1 else d.year
  let era := y.fdiv 400
  let yearOfEra := y - era * 400
  let monthFromMarch : Int := if d.month ≤ 2 then d.month + 9 else d.month - 3
  let dayOfYear := (153 * monthFromMarch + 2) / 5 + d.day - 1
  let dayOfEra := yearOfEra * 365 + yearOfEra / 4 - yearOfEra / 100 + dayOfYear
  era * 146097 + dayOfEra - 719468

/-- The day that lies a number of days after the start of 1970. -/
def ofDays (n : Int) : Date :=
  let z := n + 719468
  let era := z.fdiv 146097
  let dayOfEra := (z - era * 146097).toNat
  let yearOfEra :=
    (dayOfEra - dayOfEra / 1460 + dayOfEra / 36524 - dayOfEra / 146096) / 365
  let dayOfYear := dayOfEra - (365 * yearOfEra + yearOfEra / 4 - yearOfEra / 100)
  let monthFromMarch := (5 * dayOfYear + 2) / 153
  let month := if monthFromMarch < 10 then monthFromMarch + 3 else monthFromMarch - 9
  { year := yearOfEra + era * 400 + (if month ≤ 2 then 1 else 0)
    month
    day := dayOfYear - (153 * monthFromMarch + 2) / 5 + 1 }

end Date

/-- A whole second of the calendar. -/
structure Timestamp where
  /-- Seconds since the start of 1970. -/
  seconds : Int
  /-- It is the leap second that follows that second. -/
  leap : Bool := false
  deriving DecidableEq, Inhabited, Repr

namespace Timestamp

/-- The first second that the calendar holds. -/
def minSeconds : Int := (Date.mk Date.minYear 1 1).toDays * 86400

/-- The last second that the calendar holds. -/
def maxSeconds : Int := (Date.mk Date.maxYear 12 31).toDays * 86400 + 86399

/-- The second that a time in microseconds lies in, if the calendar holds it. -/
def ofMicros? (micros : Int) : Option Timestamp :=
  let seconds := micros.fdiv 1000000
  if minSeconds ≤ seconds ∧ seconds ≤ maxSeconds then some { seconds } else none

/-- The day. -/
def date (t : Timestamp) : Date := .ofDays (t.seconds.fdiv 86400)

/-- The seconds since midnight. -/
def secondOfDay (t : Timestamp) : Nat := (t.seconds.fmod 86400).toNat

/-- The hour of the day. -/
def hour (t : Timestamp) : Nat := t.secondOfDay / 3600

/-- The minute of the hour. -/
def minute (t : Timestamp) : Nat := t.secondOfDay / 60 % 60

/-- The second of the minute, 60 for a leap second. -/
def second (t : Timestamp) : Nat := t.secondOfDay % 60 + (if t.leap then 1 else 0)

/-- Earlier before later; a leap second comes after the second that it follows. -/
def le (a b : Timestamp) : Bool :=
  a.seconds < b.seconds || (a.seconds == b.seconds && (!a.leap || b.leap))

/-- Whether a second starts before a time in microseconds. -/
def before (t : Timestamp) (micros : Int) : Bool :=
  let limit := micros.fdiv 1000000
  t.seconds < limit || (t.seconds == limit && !t.leap && 0 < micros.fmod 1000000)

/-- A natural number, filled up with zeros to a number of digits. -/
def padded (width n : Nat) : String :=
  let digits := Nat.toDigits 10 n
  String.ofList (List.replicate (width - digits.length) '0' ++ digits)

/-- A year in four digits, or with a sign and at least four digits outside 0 to 9999. -/
def yearText (y : Int) : String :=
  if 0 ≤ y ∧ y ≤ 9999 then padded 4 y.toNat
  else (if y < 0 then "-" else "+") ++ padded 4 y.natAbs

/-- Year, month and day, with dashes between them. -/
def dateText (d : Date) : String :=
  yearText d.year ++ "-" ++ padded 2 d.month ++ "-" ++ padded 2 d.day

/-- Hour, minute and second, with `mark` between them. -/
def timeText (t : Timestamp) (mark : String) : String :=
  padded 2 t.hour ++ mark ++ padded 2 t.minute ++ mark ++ padded 2 t.second

/-- Date and time as they are read. -/
def text (t : Timestamp) : String := dateText t.date ++ " " ++ t.timeText ":"

/-- Date and time as they stand in file names. -/
def fileText (t : Timestamp) : String := dateText t.date ++ "_" ++ t.timeText "-"

/-- A time in microseconds as date and time with milliseconds, or the plain number if the calendar
does not hold it. -/
def microsText (micros : Int) : String :=
  match ofMicros? micros with
  | some t => t.text ++ "." ++ padded 3 ((micros.fmod 1000000).toNat / 1000)
  | none => toString micros

end Timestamp

end BlockLedger
