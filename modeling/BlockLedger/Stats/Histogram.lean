import BlockLedger.Number.Decimal

/-
# Latency histograms

Latencies are whole microseconds.  A histogram counts them in 32 bins whose bounds are powers of
two: the first bin holds the zeros, bin `i` the values from `2 ^ (i - 1)` to below `2 ^ i`, and
the last one everything from `2 ^ 30` on.  A percentile is answered with the lower bound of the
bin in which the value of that rank lies.
-/

namespace BlockLedger

namespace Histogram

/-- The number of bins. -/
def binCount : Nat := 32

/-- The greatest value of the words that a histogram is stored in.  Sums stop there, and it is
the least value of an empty histogram. -/
def ceiling : Nat := 2 ^ 64 - 1

/-- The bin that a value is counted in. -/
def binOf (us : Nat) : Fin binCount :=
  if us = 0 then ⟨0, by decide⟩ else ⟨min (us.log2 + 1) (binCount - 1), by unfold binCount; omega⟩

/-- The least value that is counted in a bin. -/
def lowerBound (bin : Nat) : Nat :=
  if bin = 0 then 0 else 2 ^ (bin - 1)

end Histogram

/-- Why a percentile cannot be answered. -/
inductive PercentileError where
  /-- The fraction asked for is not between 0 and 1. -/
  | outOfRange (p : Float)
  /-- The bins given are not as many as a histogram has. -/
  | binCountMismatch (bins : Nat)

namespace PercentileError

/-- What is wrong, in words. -/
def message : PercentileError → String
  | outOfRange p => "percentile must be between 0.0 and 1.0, got " ++ Decimal.plain p
  | binCountMismatch n =>
    "histogram array must have " ++ toString Histogram.binCount ++ " elements, got " ++ toString n

end PercentileError

/-- Counted latencies, with their sum and their extremes. -/
structure Histogram where
  /-- How many values fell into each bin. -/
  bins : Vector Nat Histogram.binCount := Vector.replicate _ 0
  /-- How many values were recorded. -/
  count : Nat := 0
  /-- Their sum, or `Histogram.ceiling` if that is less. -/
  total : Nat := 0
  /-- The least of them, and `Histogram.ceiling` as long as there is none. -/
  least : Nat := Histogram.ceiling
  /-- The greatest of them, and 0 as long as there is none. -/
  greatest : Nat := 0
  deriving DecidableEq, Repr

namespace Histogram

/-- The histogram of no values. -/
def empty : Histogram := {}

instance : Inhabited Histogram := ⟨empty⟩

/-- Counts one value. -/
def record (h : Histogram) (us : Nat) : Histogram where
  bins := h.bins.set (binOf us) (h.bins[binOf us] + 1)
  count := h.count + 1
  total := min (h.total + us) ceiling
  least := min h.least us
  greatest := max h.greatest us

/-- Counts every value of a list. -/
def ofList (values : List Nat) : Histogram := values.foldl record empty

/-- Whether nothing has been recorded. -/
def isEmpty (h : Histogram) : Bool := h.count == 0

/-- The least value, if there is one. -/
def least? (h : Histogram) : Option Nat := if h.isEmpty then none else some h.least

/-- The mean value, if there is one, in double precision. -/
def mean? (h : Histogram) : Option Float :=
  if h.isEmpty then none else some (Float.ofNat h.total / Float.ofNat h.count)

/-- The rank, counted from 1, of the value that lies at the fraction `p` of `total` values.  The
total is taken as a double and multiplied in double precision; the product is rounded up, and is
at least 1 and at most `Histogram.ceiling`. -/
def rank (total : Nat) (p : Binary64) : Nat :=
  let product := Binary64.round (Binary64.roundNat total * p.significand)
  let exponent := (product.2 : Int) + p.exponent
  let whole :=
    if 0 ≤ exponent then product.1 * 2 ^ exponent.toNat
    else ceilDiv product.1 (2 ^ (-exponent).toNat)
  max 1 (min whole ceiling)

/-- The first position at which the running sum of a list reaches `target`. -/
def firstReaching (target : Nat) : Nat → Nat → List Nat → Option Nat
  | _, _, [] => none
  | i, sum, n :: rest =>
    if target ≤ sum + n then some i else firstReaching target (i + 1) (sum + n) rest

/-- The lower bound of the first bin at which the counts reach the rank of `p`; `none` if all
counts are 0.  If they never reach it, the bound of the last bin answers. -/
def percentileOf (bins : List Nat) (p : Float) : Except PercentileError (Option Nat) :=
  match Binary64.ofFloat? p with
  | some parts =>
    if p < 0 || 1 < p then .error (.outOfRange p)
    else if bins.length ≠ binCount then .error (.binCountMismatch bins.length)
    else
      let total := bins.foldl (· + ·) 0
      if total = 0 then .ok none
      else .ok (some (lowerBound
        ((firstReaching (rank total parts) 0 0 bins).getD (binCount - 1))))
  | none => .error (.outOfRange p)

/-- The percentile of the values recorded. -/
def percentile (h : Histogram) (p : Float) : Except PercentileError (Option Nat) :=
  percentileOf h.bins.toList p

end Histogram

end BlockLedger
