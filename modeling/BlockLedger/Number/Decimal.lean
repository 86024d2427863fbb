import BlockLedger.Number.Binary64

/-
# Doubles in decimal

Two ways to write a finite double.  The shortest way takes the fewest digits that read back as
the same double, and of those the nearest to it: on the grids of 1, 2, 3, … significant digits the
two neighbours of the value are tested for lying among the reals that round to it.  The other way
rounds the exact value to a fixed number of places.
-/

namespace BlockLedger

/-- A positive decimal number, `digits * 10 ^ exponent`. -/
structure Decimal where
  digits : Nat
  exponent : Int
  deriving DecidableEq, Repr

namespace Decimal

/-- The text of a natural number in decimal. -/
def natText (n : Nat) : String := String.ofList (Nat.toDigits 10 n)

/-- `count` zeros. -/
def zeros (count : Nat) : String := String.ofList (List.replicate count '0')

/-- Removes the zeros at the end of the digits, for at most `fuel` of them. -/
def trim : Nat → Decimal → Decimal
  | 0, d => d
  | fuel + 1, d =>
    if d.digits ≠ 0 ∧ d.digits % 10 = 0 then trim fuel ⟨d.digits / 10, d.exponent + 1⟩ else d

/-- The reals that round to a double, as fractions with a common denominator, and the double
itself among them. -/
structure Interval where
  lower : Nat
  value : Nat
  upper : Nat
  den : Nat
  /-- Whether the two ends belong to it. -/
  closed : Bool

/-- The reals that round to a double.  Halfway cases go to an even significand; below a power of
two the doubles lie twice as close. -/
def Interval.of (x : Binary64) : Interval :=
  let shift := x.exponent - 2
  let scale := 2 ^ shift.toNat
  let below := if x.significand = 2 ^ 52 ∧ -1074 < x.exponent then 1 else 2
  { lower := (4 * x.significand - below) * scale
    value := 4 * x.significand * scale
    upper := (4 * x.significand + 2) * scale
    den := 2 ^ (-shift).toNat
    closed := x.significand % 2 == 0 }

/-- Whether `c * 10 ^ e` lies in an interval. -/
def Interval.holds (i : Interval) (c : Nat) (e : Int) : Bool :=
  let candidate := c * i.den * 10 ^ e.toNat
  let scale := 10 ^ (-e).toNat
  if i.closed then i.lower * scale ≤ candidate && candidate ≤ i.upper * scale
  else i.lower * scale < candidate && candidate < i.upper * scale

/-- The point of the grid `10 ^ e` that lies in an interval and is nearest to its value, of two
equally near ones the even one. -/
def Interval.onGrid (i : Interval) (e : Int) : Option Nat :=
  let num := i.value * 10 ^ (-e).toNat
  let den := i.den * 10 ^ e.toNat
  let nearest := roundDivEven num den
  let other := if nearest = num / den then nearest + 1 else num / den
  if nearest ≠ 0 && i.holds nearest e then some nearest
  else if other ≠ 0 && i.holds other e then some other
  else none

/-- Tries ever finer grids, from `10 ^ e` on. -/
def Interval.search (i : Interval) : Nat → Int → Option Decimal
  | 0, _ => none
  | fuel + 1, e =>
    match i.onGrid e with
    | some c => some ⟨c, e⟩
    | none => i.search fuel (e - 1)

/-- An exponent of ten that is not below the value's own, and by at most two above it. -/
def Interval.magnitude (i : Interval) : Int :=
  if i.den ≤ i.value then ((natText (i.value / i.den)).length : Int)
  else 2 - ((natText (i.den / i.value)).length : Int)

/-- The shortest decimal that reads back as a positive double, and of the shortest the nearest. -/
def shortest (x : Binary64) : Decimal :=
  let i := Interval.of x
  trim 20 ((i.search 24 i.magnitude).getD ⟨0, 0⟩)

/-- The number without an exponent: zeros before or after the digits where they are needed, and a
point only before digits of a fraction. -/
def positional (d : Decimal) : String :=
  let ds := natText d.digits
  if 0 ≤ d.exponent then ds ++ zeros d.exponent.toNat
  else
    let places := (-d.exponent).toNat
    let padded := zeros (places + 1 - ds.length) ++ ds
    (padded.take (padded.length - places)).toString ++ "."
      ++ (padded.drop (padded.length - places)).toString

/-- The text of a double without an exponent, in the fewest digits that read back. -/
def plain (x : Float) : String :=
  match Binary64.ofFloat? x with
  | none => if x.isNaN then "NaN" else if x < 0 then "-inf" else "inf"
  | some b =>
    (if b.negative then "-" else "")
      ++ if b.significand = 0 then "0" else (shortest b).positional

/-- The text of a double rounded to a fixed number of places, at least one.  The exact value is
rounded, and a tie goes to an even last digit. -/
def fixed (places : Nat) (x : Float) : String :=
  match Binary64.ofFloat? x with
  | none => if x.isNaN then "NaN" else if x < 0 then "-inf" else "inf"
  | some b =>
    let units := roundDivEven (b.significand * 10 ^ places * 2 ^ b.exponent.toNat)
      (2 ^ (-b.exponent).toNat)
    let fraction := natText (units % 10 ^ places)
    (if b.negative then "-" else "") ++ natText (units / 10 ^ places) ++ "."
      ++ zeros (places - fraction.length) ++ fraction

end Decimal

end BlockLedger
