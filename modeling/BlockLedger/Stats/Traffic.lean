import BlockLedger.Stats.Histogram
import BlockLedger.Stats.Moments

/-
# Traffic in one direction

Reads and writes of a fork are summarised in the same way: how many there were and of how many
blocks, how long they took, how they were spread over time, and how many of them carried on where
the access before had ended.  A chain of such accesses is a run; its length is taken in once the
run has ended.
-/

namespace BlockLedger

/-- The two kinds of access that move blocks. -/
inductive Direction where
  | read
  | write
  deriving DecidableEq, Inhabited, Repr

/-- How an access continues the one before it. -/
structure Access where
  /-- It starts right after the last block of the one before. -/
  sequential : Bool := false
  /-- The length in blocks of the run that it ended, 0 if it ended none. -/
  ended : Nat := 0
  deriving DecidableEq, Inhabited, Repr

/-- The accesses to a fork in one direction during a period. -/
structure Traffic where
  /-- How many accesses there were. -/
  count : Nat := 0
  /-- How many blocks they moved. -/
  blocks : Nat := 0
  /-- How long they took, in microseconds. -/
  latency : Histogram := .empty
  /-- The times between one access and the next, in microseconds. -/
  gaps : Moments Double := .empty
  /-- The time of the latest access, in this period or before; 0 if there was none. -/
  last : Int := 0
  /-- How many accesses continued a run. -/
  sequential : Nat := 0
  /-- How many accesses started a run. -/
  random : Nat := 0
  /-- The lengths of the runs that have ended, in blocks. -/
  runs : Moments Double := .empty
  deriving DecidableEq

namespace Traffic

instance : Inhabited Traffic := ⟨{}⟩

/-- The time from one access to the next.  Times have 64 bits, and so has the difference of two. -/
def gap (last now : Int) : Int := (now - last).bmod (2 ^ 64)

/-- Takes in the time of an access.  The first access ever has no gap before it. -/
def arrive (t : Traffic) (now : Int) : Traffic :=
  { t with
    gaps := if t.last = 0 then t.gaps else t.gaps.record (.ofInt (gap t.last now))
    last := now }

/-- Takes in the length of a run that has ended; 0 stands for none. -/
def endRun (t : Traffic) (blocks : Nat) : Traffic :=
  if blocks = 0 then t else { t with runs := t.runs.record (.ofNat blocks) }

/-- Counts an access as the continuation or the start of a run. -/
def classify (t : Traffic) (sequential : Bool) : Traffic :=
  if sequential then { t with sequential := t.sequential + 1 }
  else { t with random := t.random + 1 }

/-- Takes in a whole access: of `blocks` blocks, at the time `now`, in `us` microseconds. -/
def account (t : Traffic) (blocks us : Nat) (access : Access) (now : Int) : Traffic :=
  let t := (t.classify access.sequential).endRun access.ended
  { t with
    count := t.count + 1
    blocks := t.blocks + blocks
    latency := t.latency.record us }.arrive now

/-- Starts a new period: all is cleared but the time of the latest access. -/
def reset (t : Traffic) : Traffic := { last := t.last }

end Traffic

end BlockLedger
