import BlockLedger.Storage.Request
import BlockLedger.Stats.Traffic
import Std.Data.HashMap

/-
# Slots of asynchronous reads

Between its submission and its completion, what is known of a read waits in a slot.  There is a
fixed number of slots and a read's slot is the remainder of its number, so two reads in flight can
meet in a slot, and then the later one stays.  No slot exists before the first submission.
-/

namespace BlockLedger

/-- What is known of a read in flight. -/
structure Staged where
  /-- A time was taken at its submission. -/
  started : Bool := false
  access : Access := {}
  /-- The key that it is counted under. -/
  key : Option Key := none
  /-- Whether it is counted at all. -/
  tracked : Bool := false
  deriving DecidableEq, Inhabited, Repr

/-- The slots of a backend. -/
structure Slots where
  capacity : Nat
  staged : Std.HashMap Nat Staged := {}

namespace Slots

instance : Inhabited Slots := ⟨{ capacity := 1 }⟩

/-- Slots for a number of reads, at least for one. -/
def new (concurrency : Nat) : Slots := { capacity := max concurrency 1 }

/-- The slot of a read. -/
def slotOf (s : Slots) (id : Nat) : Nat := id % s.capacity

/-- What is in the slot of a read; `none` as long as nothing was submitted. -/
def get? (s : Slots) (id : Nat) : Option Staged :=
  if s.staged.isEmpty then none else some (s.staged.getD (s.slotOf id) {})

/-- Changes what is in the slot of a read. -/
def stage (s : Slots) (id : Nat) (f : Staged → Staged) : Slots :=
  { s with staged := s.staged.insert (s.slotOf id) (f (s.staged.getD (s.slotOf id) {})) }

end Slots

end BlockLedger
