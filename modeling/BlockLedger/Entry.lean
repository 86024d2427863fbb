import BlockLedger.Relation.Identity
import BlockLedger.Stats.Traffic

/-
# Entries

An entry is what has been counted for one key since the current period began, together with the
identity of the relation once that is known.  A new period clears the counts and keeps what the
next counts depend on: the times of the latest accesses, the last second that was counted as
active, and the identity.
-/

namespace BlockLedger

/-- The statistics of one key in the current period. -/
structure Entry where
  key : Key
  reads : Traffic := {}
  writes : Traffic := {}
  /-- How often the fork was extended. -/
  extensions : Nat := 0
  /-- By how many blocks in all. -/
  extendedBlocks : Nat := 0
  truncations : Nat := 0
  /-- How often the fork was forced to disk at once. -/
  syncs : Nat := 0
  /-- In how many whole seconds there was any activity; a number of 32 bits. -/
  activeSeconds : Nat := 0
  /-- The latest of those seconds, in this period or before. -/
  lastActiveSecond : Int := 0
  /-- The time of the first activity in the period, 0 if there was none. -/
  firstAccess : Int := 0
  /-- The greatest time of an activity in the period. -/
  lastAccess : Int := 0
  identity : Identity := .unknown
  deriving DecidableEq

namespace Entry

instance : Inhabited Entry := ⟨{ key := default }⟩

/-- An entry without any activity.  What stands for the temporary relations of a database is known
from the start. -/
def new (key : Key) : Entry :=
  { key, identity := if key.isTemporaries then .temporaries else .unknown }

/-- The second that a time in microseconds lies in. -/
def secondOf (now : Int) : Int := now.fdiv 1000000

/-- Whether anything happened in the period. -/
def active (e : Entry) : Bool := e.firstAccess != 0

/-- Notes that there is activity at the time `now`.  The number of active seconds wraps around. -/
def touch (e : Entry) (now : Int) : Entry :=
  { e with
    firstAccess := if e.firstAccess = 0 then now else e.firstAccess
    lastAccess := max e.lastAccess now
    activeSeconds :=
      if secondOf now = e.lastActiveSecond then e.activeSeconds
      else (e.activeSeconds + 1) % 2 ^ 32
    lastActiveSecond := secondOf now }

/-- Starts a new period. -/
def reset (e : Entry) : Entry :=
  { key := e.key
    reads := e.reads.reset
    writes := e.writes.reset
    lastActiveSecond := e.lastActiveSecond
    identity := e.identity }

/-- The traffic in one direction. -/
def traffic (e : Entry) : Direction → Traffic
  | .read => e.reads
  | .write => e.writes

/-- Changes the traffic in one direction. -/
def withTraffic (e : Entry) (d : Direction) (f : Traffic → Traffic) : Entry :=
  match d with
  | .read => { e with reads := f e.reads }
  | .write => { e with writes := f e.writes }

/-- Takes in a read or a write. -/
def account (e : Entry) (d : Direction) (blocks us : Nat) (access : Access) (now : Int) : Entry :=
  (e.withTraffic d fun t => t.account blocks us access now).touch now

/-- Whether an identity would be taken on: only a valid one is, and only the first. -/
def accepts (e : Entry) (i : Identity) : Bool := !e.identity.valid && i.valid

/-- Takes on an identity, if none has been found yet and this one is valid. -/
def identify (e : Entry) (i : Identity) : Entry :=
  if e.accepts i then { e with identity := i } else e

@[simp] theorem new_key (k : Key) : (new k).key = k := rfl

@[simp] theorem touch_key (e : Entry) (now : Int) : (e.touch now).key = e.key := rfl

@[simp] theorem reset_key (e : Entry) : e.reset.key = e.key := rfl

@[simp] theorem reset_identity (e : Entry) : e.reset.identity = e.identity := rfl

@[simp] theorem reset_active (e : Entry) : e.reset.active = false := rfl

@[simp] theorem withTraffic_key (e : Entry) (d : Direction) (f : Traffic → Traffic) :
    (e.withTraffic d f).key = e.key := by
  cases d <;> rfl

@[simp] theorem account_key (e : Entry) (d : Direction) (blocks us : Nat) (a : Access)
    (now : Int) : (e.account d blocks us a now).key = e.key := by
  simp [account]

@[simp] theorem identify_key (e : Entry) (i : Identity) : (e.identify i).key = e.key := by
  unfold identify
  split <;> rfl

end Entry

end BlockLedger
