import BlockLedger.Relation.Key
import BlockLedger.Stats.Traffic
import Std.Data.HashMap

/-
# Run detection

Every backend remembers, for each fork and direction, which block it touched last.  An access that
starts at the next block carries on the run; any other access ends it and starts a new one.  Runs
that are still open are handed out together when the backend leaves.  The length of a run is a
number of 64 bits.

When several forks are counted under one key, as the temporary relations of a database are, runs
are still told apart by the fork itself, and the key they belong to is remembered beside them.
-/

namespace BlockLedger

/-- What is remembered of the accesses to one fork in one direction. -/
structure Cursor where
  /-- The block that was touched last. -/
  last : Option BlockNumber := none
  /-- The length in blocks of the open run. -/
  run : UInt64 := 0
  deriving DecidableEq, Inhabited, Repr

namespace Cursor

/-- Whether an access to `block` carries on the run.  After the last block number there is none. -/
def continues (c : Cursor) (block : BlockNumber) : Bool :=
  match c.last with
  | some last => last ≠ 4294967295 && last + 1 == block
  | none => false

/-- Takes in an access to `count` blocks from `block` on.  Block numbers wrap around, and so does the
length of a run. -/
def step (c : Cursor) (block count : BlockNumber) : Access × Cursor :=
  let last := some (block + count - 1)
  if c.continues block then (⟨true, 0⟩, ⟨last, c.run + count.toUInt64⟩)
  else (⟨false, c.run.toNat⟩, ⟨last, count.toUInt64⟩)

end Cursor

/-- What is remembered of the accesses to one fork. -/
structure Pattern where
  reads : Cursor := {}
  writes : Cursor := {}
  /-- The key that the runs are counted under, if it is not the fork's own. -/
  account : Option Key := none
  deriving DecidableEq, Inhabited, Repr

namespace Pattern

/-- What is remembered of one direction. -/
def cursor (p : Pattern) : Direction → Cursor
  | .read => p.reads
  | .write => p.writes

/-- Replaces what is remembered of one direction. -/
def withCursor (p : Pattern) (d : Direction) (c : Cursor) : Pattern :=
  match d with
  | .read => { p with reads := c }
  | .write => { p with writes := c }

end Pattern

/-- A run that has ended: where it is to be counted, and how long it was. -/
structure EndedRun where
  key : Key
  direction : Direction
  blocks : Nat
  deriving DecidableEq, Inhabited, Repr

/-- The run detector of a backend. -/
structure Runs where
  patterns : Std.HashMap Key Pattern := {}

namespace Runs

instance : Inhabited Runs := ⟨{}⟩

/-- What is remembered of a fork. -/
def pattern (r : Runs) (key : Key) : Pattern := r.patterns.getD key {}

/-- Takes in an access to a fork. -/
def check (r : Runs) (key : Key) (block count : BlockNumber) (d : Direction) : Access × Runs :=
  let pattern := r.pattern key
  let (access, cursor) := (pattern.cursor d).step block count
  (access, ⟨r.patterns.insert key (pattern.withCursor d cursor)⟩)

/-- Notes under which key the open runs of a fork are counted, if the fork is remembered. -/
def accountUnder (r : Runs) (key target : Key) : Runs :=
  match r.patterns[key]? with
  | some pattern => ⟨r.patterns.insert key { pattern with account := some target }⟩
  | none => r

/-- How many forks are remembered. -/
def size (r : Runs) : Nat := r.patterns.size

/-- The open runs of one fork, under the key that they are counted under. -/
def openOf (key : Key) (p : Pattern) : List EndedRun :=
  let target := p.account.getD key
  (if p.reads.run = 0 then [] else [⟨target, .read, p.reads.run.toNat⟩])
    ++ (if p.writes.run = 0 then [] else [⟨target, .write, p.writes.run.toNat⟩])

/-- All runs that are still open. -/
def openRuns (r : Runs) : List EndedRun :=
  r.patterns.toList.flatMap fun (key, pattern) => openOf key pattern

end Runs

end BlockLedger
