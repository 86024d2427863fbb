import BlockLedger.Event
import BlockLedger.Ring
import BlockLedger.Store

/-
# The ledger

The ledger is all that the backends and the collector share: the tunables, the store of entries,
the ring of relocations, the clock, and the journal of what has been reported.
-/

namespace BlockLedger

/-- What the outside world shows of time. -/
structure Clock where
  /-- The time, in microseconds since 1970. -/
  now : Int := 0
  /-- How long the storage takes for a call, in microseconds. -/
  lag : Nat := 0
  /-- The time of the calendar, for when `now` is beyond what the calendar holds. -/
  today : Int := 0
  deriving DecidableEq, Inhabited, Repr

/-- What backends and the collector share. -/
structure Ledger where
  tunables : Tunables := .ofSettings {}
  store : Store := {}
  ring : Ring := {}
  clock : Clock := {}
  journal : Array Event := #[]

namespace Ledger

instance : Inhabited Ledger := ⟨{}⟩

/-- The ledger of a fresh start. -/
def start (s : Settings) (clock : Clock) : Ledger := { tunables := .ofSettings s, clock }

/-- Adds an event to the journal. -/
def report (l : Ledger) (e : Event) : Ledger := { l with journal := l.journal.push e }

/-- Changes the store. -/
def withStore (l : Ledger) (f : Store → Store) : Ledger := { l with store := f l.store }

/-- Lets time pass. -/
def advance (l : Ledger) (micros : Int) : Ledger :=
  { l with clock := { l.clock with now := l.clock.now + micros } }

/-- Puts the clock to a time. -/
def setClock (l : Ledger) (micros : Int) : Ledger :=
  { l with clock := { l.clock with now := micros } }

/-- Notes a relocation; tells whether there was room for it. -/
def relocate (l : Ledger) (r : Relocation) : Ledger × Bool :=
  let (ring, accepted) := l.ring.enqueue r
  let l := { l with ring }
  (if accepted then l else l.report (.relocationDropped r), accepted)

/-- Applies new settings to the tunables, reporting an interval that is out of range. -/
def reload (l : Ledger) (s : Settings) : Ledger :=
  let tunables := Tunables.reload s
  let l := { l with tunables }
  if tunables.interval = s.interval then l
  else l.report (.intervalClamped s.interval tunables.interval)

section Frame

variable (l : Ledger) (r : Relocation) (s : Settings)

/-- A relocation is brought to the ring, and may be reported. -/
theorem relocate_eq :
    ∃ journal, (l.relocate r).1 = { l with ring := (l.ring.enqueue r).1, journal } := by
  unfold relocate
  dsimp only
  split <;> exact ⟨_, rfl⟩

@[simp] theorem relocate_ring : (l.relocate r).1.ring = (l.ring.enqueue r).1 := by
  obtain ⟨journal, h⟩ := l.relocate_eq r
  rw [h]

@[simp] theorem relocate_store : (l.relocate r).1.store = l.store := by
  obtain ⟨journal, h⟩ := l.relocate_eq r
  rw [h]

@[simp] theorem relocate_tunables : (l.relocate r).1.tunables = l.tunables := by
  obtain ⟨journal, h⟩ := l.relocate_eq r
  rw [h]

@[simp] theorem relocate_clock : (l.relocate r).1.clock = l.clock := by
  obtain ⟨journal, h⟩ := l.relocate_eq r
  rw [h]

/-- New settings are put in force, and may be reported. -/
theorem reload_eq : ∃ journal, l.reload s = { l with tunables := .reload s, journal } := by
  unfold reload
  dsimp only
  split <;> exact ⟨_, rfl⟩

@[simp] theorem reload_tunables : (l.reload s).tunables = .reload s := by
  obtain ⟨journal, h⟩ := l.reload_eq s
  rw [h]

@[simp] theorem reload_store : (l.reload s).store = l.store := by
  obtain ⟨journal, h⟩ := l.reload_eq s
  rw [h]

@[simp] theorem reload_ring : (l.reload s).ring = l.ring := by
  obtain ⟨journal, h⟩ := l.reload_eq s
  rw [h]

@[simp] theorem reload_clock : (l.reload s).clock = l.clock := by
  obtain ⟨journal, h⟩ := l.reload_eq s
  rw [h]

end Frame

/-- The key that I/O on a fork is counted under: its own, for temporary relations as the tunables
have it, or none. -/
def trackingKey (l : Ledger) (key : Key) (temporary : Bool) : Option Key :=
  if temporary then
    match l.tunables.tempTracking with
    | .off => none
    | .individual => some key
    | .aggregate => some (.temporaries key.locator.database)
  else some key

end Ledger

end BlockLedger
