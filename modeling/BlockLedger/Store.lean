import BlockLedger.Entry
import BlockLedger.Relation.Partition
import BlockLedger.Runs
import Std.Data.HashMap

/-
# The store of entries

The store holds one entry for every key that was ever used, and the number of the bucket that is
being filled.  A snapshot copies the entries with activity; a closing snapshot also starts a new
period for each of them and goes on to the next bucket.

Creating an entry and closing the period of an entry are steps of their own: between them other
callers may come in, and a snapshot is nothing but a walk that takes one entry after the other.
-/

namespace BlockLedger

/-- The entries of all keys, and the bucket being filled. -/
structure Store where
  entries : Std.HashMap Key Entry := {}
  /-- The number of the bucket being filled, counted from 1. -/
  bucket : Nat := 1

namespace Store

instance : Inhabited Store := ⟨{}⟩

/-- The entry of a key, if there is one. -/
def find? (s : Store) (key : Key) : Option Entry := s.entries[key]?

/-- The number of entries; they are never removed. -/
def size (s : Store) : Nat := s.entries.size

/-- Puts in a fresh entry, unless the key has one by now; tells whether it did. -/
def insertIfAbsent (s : Store) (key : Key) : Store × Bool :=
  if s.entries.contains key then (s, false)
  else ({ s with entries := s.entries.insert key (.new key) }, true)

/-- Makes sure that a key has an entry; tells whether a new one was needed.  The key is looked up
first, since nearly always there is one. -/
def ensure (s : Store) (key : Key) : Store × Bool :=
  match s.find? key with
  | some _ => (s, false)
  | none => s.insertIfAbsent key

/-- Changes the entry of a key, if there is one. -/
def modify (s : Store) (key : Key) (f : Entry → Entry) : Store :=
  match s.find? key with
  | some e => { s with entries := s.entries.insert key (f e) }
  | none => s

/-- Gives the entry of a key the identity `i`; tells whether the entry took it on. -/
def identify (s : Store) (key : Key) (i : Identity) : Store × Bool :=
  match s.find? key with
  | some e => if e.accepts i then (s.modify key fun e => e.identify i, true) else (s, false)
  | none => (s, false)

/-- Counts a run that has ended, if its key has an entry. -/
def endRun (s : Store) (run : EndedRun) : Store :=
  s.modify run.key fun e => e.withTraffic run.direction fun t => t.endRun run.blocks

/-! ## Snapshots -/

/-- The order in which entries are met: partition by partition. -/
def met (a b : Key) : Bool :=
  a.partition < b.partition || (a.partition == b.partition && a.le b)

/-- All keys, in the order in which they are met. -/
def keys (s : Store) : List Key := s.entries.keys.mergeSort met

/-- Copies one entry and starts a new period for it, if there was any activity. -/
def take (s : Store) (key : Key) : Option Entry × Store :=
  match s.find? key with
  | some e => if e.active then (some e, s.modify key Entry.reset) else (none, s)
  | none => (none, s)

/-- Takes the entries of a list of keys, one after the other. -/
def takeAll (s : Store) : List Key → List Entry × Store
  | [] => ([], s)
  | key :: rest =>
    let (copy, s) := s.take key
    let (copies, s) := s.takeAll rest
    (copy.toList ++ copies, s)

/-- Goes on to the next bucket and returns the number of the one that is closed. -/
def nextBucket (s : Store) : Nat × Store := (s.bucket, { s with bucket := s.bucket + 1 })

/-- Closes the bucket: its number, its entries, and the store in the new period. -/
def close (s : Store) : Nat × List Entry × Store :=
  let (bucket, s) := s.nextBucket
  let (copies, s) := s.takeAll s.keys
  (bucket, copies, s)

/-- The entries with activity so far. -/
def peek (s : Store) : List Entry := (s.keys.filterMap s.find?).filter Entry.active

end Store

end BlockLedger
