import BlockLedger.Relation.Relocation

/-
# The ring of relocations

Relocations are noticed in the middle of storage calls and collected later, so they wait in a
ring of 1024 slots.  Positions only ever grow; the slot of a position is its remainder.  A
producer claims the position `head`, fills the slot, and then publishes it by stamping it with the
position after it.  The consumer starts at `tail`, and stops at the first slot whose stamp is not
the one it waits for: that slot has been claimed, but not been filled yet.

At most 1023 positions are claimed and not consumed; what comes on top of them is dropped and
counted.  Every operation is put together from the single accesses to the shared words, so that
the interleavings of several producers with the consumer are sequences of the same accesses.
-/

namespace BlockLedger

namespace Ring

/-- The number of slots. -/
def capacity : Nat := 1024

/-- The number of slots that may be occupied at a time. -/
def room : UInt64 := 1023

/-- The slot of a position. -/
def slotOf (pos : UInt64) : Fin capacity := ⟨pos.toNat % capacity, Nat.mod_lt _ (by decide)⟩

/-- A place for one relocation. -/
structure Slot where
  /-- The position after the one that was last published here, 0 at first. -/
  stamp : UInt64 := 0
  event : Relocation := default
  deriving DecidableEq, Inhabited, Repr

end Ring

/-- A bounded queue of relocations. -/
structure Ring where
  /-- The next position to be claimed. -/
  head : UInt64 := 0
  /-- The next position to be consumed. -/
  tail : UInt64 := 0
  /-- How many relocations found no room. -/
  dropped : Nat := 0
  slots : Vector Ring.Slot Ring.capacity := Vector.replicate _ {}
  deriving DecidableEq

namespace Ring

instance : Inhabited Ring := ⟨{}⟩

/-! ## Single accesses -/

/-- Whether two positions, as they were read, leave no room.  The difference wraps around. -/
def full (head tail : UInt64) : Bool := room ≤ head - tail

/-- Takes the next position away. -/
def grow (r : Ring) : Ring := { r with head := r.head + 1 }

/-- Claims the position `head`, unless somebody else has claimed it already. -/
def claim (r : Ring) (head : UInt64) : Option Ring :=
  if r.head = head then some r.grow else none

/-- Fills the slot of a claimed position. -/
def fill (r : Ring) (pos : UInt64) (e : Relocation) : Ring :=
  { r with slots := r.slots.set (slotOf pos) { r.slots[slotOf pos] with event := e } }

/-- Publishes a position whose slot has been filled. -/
def publish (r : Ring) (pos : UInt64) : Ring :=
  { r with slots := r.slots.set (slotOf pos) { r.slots[slotOf pos] with stamp := pos + 1 } }

/-- The relocation at a position, if it has been published. -/
def look (r : Ring) (pos : UInt64) : Option Relocation :=
  if r.slots[slotOf pos].stamp = pos + 1 then some r.slots[slotOf pos].event else none

/-- Counts a relocation that found no room. -/
def drop (r : Ring) : Ring := { r with dropped := r.dropped + 1 }

/-- Moves the tail on to a position. -/
def advance (r : Ring) (pos : UInt64) : Ring := { r with tail := pos }

/-! ## Whole operations -/

/-- Appends a relocation; tells whether there was room for it. -/
def enqueue (r : Ring) (e : Relocation) : Ring × Bool :=
  if full r.head r.tail then (r.drop, false)
  else ((r.grow.fill r.head e).publish r.head, true)

/-- The published relocations from a position up to `head`, at most `fuel` of them, and the
position after the last one. -/
def collect (r : Ring) (head : UInt64) : Nat → UInt64 → List Relocation × UInt64
  | 0, pos => ([], pos)
  | fuel + 1, pos =>
    if pos < head then
      match r.look pos with
      | some e =>
        let (rest, stop) := r.collect head fuel (pos + 1)
        (e :: rest, stop)
      | none => ([], pos)
    else ([], pos)

/-- Takes out all published relocations, oldest first. -/
def drain (r : Ring) : List Relocation × Ring :=
  let (events, stop) := r.collect r.head capacity r.tail
  (events, r.advance stop)

/-- How many positions are claimed and not consumed. -/
def length (r : Ring) : Nat := (r.head - r.tail).toNat

/-- Whether no position is claimed and not consumed. -/
def isEmpty (r : Ring) : Bool := r.length == 0

end Ring

end BlockLedger
