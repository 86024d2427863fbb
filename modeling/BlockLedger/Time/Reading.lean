import BlockLedger.Time.Calendar

/-
# Reading times

Times in file names are read generously: blanks before a number are skipped, numbers may have
fewer digits than are written, and a year may have a sign and then any number of digits.  What
comes between the numbers must be there exactly, and the numbers must name a second of the
calendar.
-/

namespace BlockLedger

namespace Timestamp

/-- The characters that count as blanks. -/
def isBlank (c : Char) : Bool :=
  let n := c.toNat
  (9 ≤ n && n ≤ 13) || n == 32 || n == 0x85 || n == 0xA0 || n == 0x1680
    || (0x2000 ≤ n && n ≤ 0x200A) || n == 0x2028 || n == 0x2029 || n == 0x202F || n == 0x205F
    || n == 0x3000

/-- The number that digits stand for. -/
def digitsValue (ds : List Char) : Nat := ds.foldl (fun n c => 10 * n + (c.toNat - '0'.toNat)) 0

/-- A number at the start of a text, of at least one and at most `width` digits, and what comes
after it. -/
def readDigits (width : Nat) (cs : List Char) : Option (Nat × List Char) :=
  let ds := (cs.take width).takeWhile Char.isDigit
  if ds.isEmpty then none else some (digitsValue ds, cs.drop ds.length)

/-- A number of up to two digits within bounds, after any blanks. -/
def readField (least greatest : Nat) (cs : List Char) : Option (Nat × List Char) :=
  match readDigits 2 (cs.dropWhile isBlank) with
  | some (n, rest) => if least ≤ n ∧ n ≤ greatest then some (n, rest) else none
  | none => none

/-- A year after any blanks: up to four digits, or any number of them after a sign. -/
def readYear (cs : List Char) : Option (Int × List Char) :=
  match cs.dropWhile isBlank with
  | '-' :: rest => (readDigits rest.length rest).map fun (n, rest) => (-(n : Int), rest)
  | '+' :: rest => (readDigits rest.length rest).map fun (n, rest) => ((n : Int), rest)
  | cs => (readDigits 4 cs).map fun (n, rest) => ((n : Int), rest)

/-- What comes after a given character. -/
def expect (c : Char) : List Char → Option (List Char)
  | d :: rest => if d = c then some rest else none
  | [] => none

/-- A second of the calendar, from its numbers. -/
def ofFields? (d : Date) (hour minute second : Nat) : Option Timestamp :=
  if d.valid then
    some
      { seconds := d.toDays * 86400 + (hour * 3600 + minute * 60 + min second 59 : Nat)
        leap := second == 60 }
  else none

/-- Reads date and time as they stand in file names. -/
def read? (cs : List Char) : Option Timestamp := do
  let (year, cs) ← readYear cs
  let (month, cs) ← readField 1 12 (← expect '-' cs)
  let (day, cs) ← readField 1 31 (← expect '-' cs)
  let (hour, cs) ← readField 0 23 (← expect '_' cs)
  let (minute, cs) ← readField 0 59 (← expect '-' cs)
  let (second, cs) ← readField 0 60 (← expect '-' cs)
  if cs.isEmpty then ofFields? ⟨year, month, day⟩ hour minute second else none

end Timestamp

end BlockLedger
