/-
# The generator of the workload

A generator of 64-bit numbers by three shifts, each combined with the number by exclusive or.  It
only has to spread accesses about.
-/

namespace BlockLedger

/-- The state of a generator, which is also the number that it has given last. -/
structure Generator where
  state : UInt64
  deriving DecidableEq, Inhabited, Repr

namespace Generator

/-- The factor that spreads seeds. -/
def spread : UInt64 := 0x9E3779B97F4A7C15

/-- The generator of a seed.  Its state is odd. -/
def ofSeed (seed : UInt64) : Generator := ⟨(seed * spread) ||| 1⟩

/-- One step of the state. -/
def step (x : UInt64) : UInt64 :=
  let x : UInt64 := x ^^^ (x <<< 13)
  let x : UInt64 := x ^^^ (x >>> 7)
  x ^^^ (x <<< 17)

/-- The next number. -/
def next (g : Generator) : UInt64 × Generator := (step g.state, ⟨step g.state⟩)

/-- A number below a bound, and 0 for a bound of 0. -/
def below (g : Generator) (bound : UInt32) : UInt32 × Generator :=
  let (x, g) := g.next
  (UInt32.ofNat (x.toNat % (max bound 1).toNat), g)

end Generator

end BlockLedger
