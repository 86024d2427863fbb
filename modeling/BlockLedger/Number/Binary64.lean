import BlockLedger.Number.Natural

/-
# Binary floating point, taken apart

A finite double is a sign, a whole significand below `2 ^ 53` and a power of two.  All exact work
on doubles, such as writing one in decimal or taking a rank out of a count, starts from these
parts and goes on in whole numbers.
-/

namespace BlockLedger

/-- The quotient of two numbers, rounded to the nearest whole number; a tie goes to the even
one. -/
def roundDivEven (num den : Nat) : Nat :=
  let q := num / den
  let twice := 2 * (num % den)
  if twice < den then q else if den < twice then q + 1 else q + q % 2

/-- The quotient of two numbers, rounded up. -/
def ceilDiv (num den : Nat) : Nat := (num + den - 1) / den

/-- The number of binary digits of a number, 0 for 0. -/
def bitLength (n : Nat) : Nat := if n = 0 then 0 else n.log2 + 1

/-- A finite double: `significand * 2 ^ exponent`, with a sign. -/
structure Binary64 where
  negative : Bool
  significand : Nat
  exponent : Int
  deriving DecidableEq, Repr

namespace Binary64

/-- The parts of the double with the given bits; `none` for infinities and not-a-number. -/
def ofBits? (bits : UInt64) : Option Binary64 :=
  let n := bits.toNat
  let fraction : Nat := n % 2 ^ 52
  let biased : Nat := n / 2 ^ 52 % 2 ^ 11
  let negative := n / 2 ^ 63 == 1
  if biased = 2 ^ 11 - 1 then none
  else if biased = 0 then some ⟨negative, fraction, -1074⟩
  else some ⟨negative, 2 ^ 52 + fraction, (biased : Int) - 1075⟩

/-- The parts of a double; `none` for infinities and not-a-number. -/
def ofFloat? (x : Float) : Option Binary64 := ofBits? x.toBits

/-- A positive number cut to 53 binary digits by rounding to nearest, as a significand and the
power of two it is to be multiplied with. -/
def round (n : Nat) : Nat × Nat :=
  let excess := bitLength n - 53
  (roundDivEven n (2 ^ excess), excess)

/-- The double nearest to a whole number, as a whole number. -/
def roundNat (n : Nat) : Nat := (round n).1 * 2 ^ (round n).2

end Binary64

end BlockLedger
