import BlockLedger.Number.Double

/-
# Streaming moments

The mean and the spread of a sequence of numbers, kept without the numbers themselves.  Each new
number moves the mean by its share of the distance, and adds to the sum of squared deviations the
product of its distances from the old and the new mean.

The recursion is written once over any numbers that can be added and divided: the program runs it
on doubles, and over the rationals it can be compared with the textbook formulas.
-/

namespace BlockLedger

/-- Numbers that moments can be taken of. -/
class Scalar (α : Type) extends Zero α, Add α, Sub α, Mul α, Div α where
  /-- A whole number as a number of this kind. -/
  ofCount : Nat → α

instance : Scalar Double where
  ofCount := Double.ofNat

/-- How many numbers were seen, their mean, and the sum of their squared deviations from it. -/
structure Moments (α : Type) where
  count : Nat
  mean : α
  /-- The sum of squared deviations from the mean. -/
  squares : α
  deriving DecidableEq, BEq, Repr

namespace Moments

variable {α : Type} [Scalar α]

/-- No number has been seen. -/
def empty : Moments α := ⟨0, 0, 0⟩

instance : Inhabited (Moments α) := ⟨empty⟩

/-- Takes in one more number. -/
def record (m : Moments α) (x : α) : Moments α :=
  let count := m.count + 1
  let delta := x - m.mean
  let mean := m.mean + delta / Scalar.ofCount count
  ⟨count, mean, m.squares + delta * (x - mean)⟩

/-- Takes in every number of a list. -/
def ofList (xs : List α) : Moments α := xs.foldl record empty

/-- The sample variance, 0 with fewer than two numbers. -/
def variance (m : Moments α) : α :=
  if m.count < 2 then 0 else m.squares / Scalar.ofCount (m.count - 1)

/-- The sample standard deviation. -/
def deviation (m : Moments Double) : Float := m.variance.toFloat.sqrt

/-- The standard deviation as a share of the mean's size, 0 if there is none. -/
def variation (m : Moments Double) : Float :=
  if m.count < 2 || m.mean.toFloat == 0 then 0 else m.deviation / m.mean.toFloat.abs

@[simp] theorem empty_count : (empty : Moments α).count = 0 := rfl

@[simp] theorem record_count (m : Moments α) (x : α) : (m.record x).count = m.count + 1 := rfl

end Moments

end BlockLedger
