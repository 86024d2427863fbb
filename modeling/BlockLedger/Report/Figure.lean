import BlockLedger.Number.Decimal

/-
# Figures in reports

How amounts are written for readers: sizes and times in the greatest unit that they reach, with one
place; shares in percent; and columns of a fixed width, which a longer text simply overruns.
-/

namespace BlockLedger

namespace Figure

/-- A text at the left of a column. -/
def left (width : Nat) (s : String) : String :=
  s ++ String.ofList (List.replicate (width - s.length) ' ')

/-- A text at the right of a column. -/
def right (width : Nat) (s : String) : String :=
  String.ofList (List.replicate (width - s.length) ' ') ++ s

/-- The quotient of two numbers in double precision, with one place. -/
def quotient (n unit : Nat) : String := Decimal.fixed 1 (Float.ofNat n / Float.ofNat unit)

/-- A number of bytes. -/
def size (bytes : Nat) : String :=
  if 1048576 ≤ bytes then quotient bytes 1048576 ++ " MiB"
  else if 1024 ≤ bytes then quotient bytes 1024 ++ " KiB"
  else toString bytes ++ " B"

/-- A number of microseconds, if there is one. -/
def latency : Option Nat → String
  | none => "-"
  | some us =>
    if 1000000 ≤ us then quotient us 1000000 ++ "s"
    else if 1000 ≤ us then quotient us 1000 ++ "ms"
    else toString us ++ "us"

/-- A part of a whole in percent, in double precision. -/
def share (part total : Nat) : Float :=
  if total = 0 then 0 else Float.ofNat part / Float.ofNat total * 100

end Figure

end BlockLedger
