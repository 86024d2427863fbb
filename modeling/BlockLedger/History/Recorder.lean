import BlockLedger.History.Sink

/-
# Sinks that keep note

A sink that stores nothing and only keeps note of what it is given.  It can be made to crash a
number of times, and it can be given keys in which there is activity whenever it has taken a
bucket, as if backends were at work at that very moment.
-/

namespace BlockLedger

/-- What a recorder keeps note of. -/
inductive Delivery where
  | bucket (number : Nat) (collectedAt : Int) (keys : List Key)
  | associations (count : Nat)
  | trim (hours : Nat)
  deriving DecidableEq, Repr

/-- A sink that keeps note of what it is given. -/
structure Recorder where
  deliveries : Array Delivery := #[]
  /-- How many more buckets are met with a crash. -/
  crashes : Nat := 0
  /-- The keys in which there is activity after each bucket. -/
  busy : List Key := []

namespace Recorder

instance : Inhabited Recorder := ⟨{}⟩

/-- Keeps note of a delivery. -/
def note (r : Recorder) (d : Delivery) : Recorder := { r with deliveries := r.deliveries.push d }

/-- The delivery that a record makes. -/
def deliveryOf : SegmentRecord → Delivery
  | .bucket r => .bucket r.bucket r.collectedAt ((r.entries.map Entry.key).mergeSort Key.le)
  | .associations r => .associations r.associations.length

/-- Activity in a key: a write of no blocks that took no time at all. -/
def stir (l : Ledger) (key : Key) : Ledger :=
  l.withStore fun s =>
    (s.ensure key).1.modify key fun e =>
      (e.withTraffic .write fun t => { t with count := t.count + 1 }).touch l.clock.now

/-- Activity in all keys of a list. -/
def stirAll (l : Ledger) (keys : List Key) : Ledger := keys.foldl stir l

instance : Sink Recorder where
  store r record l :=
    match record.kind with
    | .bucket =>
      if 0 < r.crashes then (.crashed, { r with crashes := r.crashes - 1 }, l)
      else (.done (), r.note (deliveryOf record), stirAll l r.busy)
    | .associations => (.done (), r.note (deliveryOf record), l)
  trim r hours _ l := (.done {}, r.note (.trim hours), l)

end Recorder

end BlockLedger
