import BlockLedger.Catalog
import BlockLedger.History.Sink
import BlockLedger.Identify.Spread

/-
# Collection cycles

A cycle closes the bucket, gives identities to the copies that were taken, drains the ring, hands
both to the sink, and trims history.  What the sink refuses is lost, since the period has been
closed by then.

The copies are given identities without a look at other backends: an entry of the collector's own
database, or a shared one, takes the identity that was found for its locator earlier in the same
cycle, or that its live entry has by now, or that the catalog knows.  Forks that were met before
the identity of their relation was found get it in a second pass.
-/

namespace BlockLedger

/-- What a cycle came to. -/
structure CycleReport where
  bucket : Nat
  /-- How many entries had any activity. -/
  entries : Nat
  /-- How many copies were given an identity. -/
  resolved : Nat
  relocations : Nat
  /-- The sink has refused nothing. -/
  persisted : Bool
  deriving DecidableEq, Inhabited, Repr

namespace Collector

variable {C S : Type} [Catalog C] [Sink S]

/-! ## Identities -/

/-- The identities found in a cycle. -/
abbrev Found := Std.HashMap Locator Identity

/-- The identity for an entry without one: that of the live entry, or what the catalog knows, which
is then given to the live entries too. -/
def identityFor (session : Session) (key : Key) (l : Ledger) (catalog : C) :
    Option Identity × Ledger × C :=
  match (l.store.find? key).filter fun e => e.identity.valid with
  | some e => (some e.identity, l, catalog)
  | none =>
    match Catalog.find catalog session key with
    | (.found identity, catalog) =>
      (some identity, { l with store := (l.store.resolve key identity).2 }, catalog)
    | (.failed e, catalog) => (none, l.report (.collectorLookupFailed key e), catalog)
    | (_, catalog) => (none, l, catalog)

/-- Gives identities to copies, one after the other: the copies, how many were given one, and what
was found. -/
def identifyCopies (session : Session) :
    List Entry → Found → Ledger → C → (List Entry × Nat × Found) × Ledger × C
  | [], found, l, catalog => (([], 0, found), l, catalog)
  | e :: rest, found, l, catalog =>
    if e.identity.valid || !session.owns e.key.locator.database then
      match identifyCopies session rest found l catalog with
      | ((copies, n, found), l, catalog) => ((e :: copies, n, found), l, catalog)
    else
      match found[e.key.locator]? with
      | some identity =>
        match identifyCopies session rest found l catalog with
        | ((copies, n, found), l, catalog) =>
          (({ e with identity } :: copies, n + 1, found), l, catalog)
      | none =>
        match identityFor session e.key l catalog with
        | (some identity, l, catalog) =>
          match identifyCopies session rest (found.insert e.key.locator identity) l catalog with
          | ((copies, n, found), l, catalog) =>
            (({ e with identity } :: copies, n + 1, found), l, catalog)
        | (none, l, catalog) =>
          match identifyCopies session rest found l catalog with
          | ((copies, n, found), l, catalog) => ((e :: copies, n, found), l, catalog)

/-- Gives what was found to the copies that were passed by before. -/
def catchUp (found : Found) : List Entry → List Entry × Nat
  | [] => ([], 0)
  | e :: rest =>
    let (copies, n) := catchUp found rest
    if e.identity.valid then (e :: copies, n)
    else
      match found[e.key.locator]? with
      | some identity => ({ e with identity } :: copies, n + 1)
      | none => (e :: copies, n)

/-- Gives identities to copies: the copies, and how many were given one.  The catalog is asked in a
transaction. -/
def identifyAll (session : Session) (copies : List Entry) (l : Ledger) (catalog : C) :
    (List Entry × Nat) × Ledger × C :=
  match identifyCopies session.enter copies {} l catalog with
  | ((copies, n, found), l, catalog) =>
    let (copies, m) := catchUp found copies
    ((copies, n + m), l, catalog)

/-! ## Relocations -/

/-- A relocation with the identity of the entry that the storage had before it moved. -/
def associate (s : Store) (r : Relocation) : Association :=
  { r with identity := ((s.find? ⟨r.source, r.fork⟩).map Entry.identity).filter Identity.valid }

/-- Drains the ring.  That relocations were dropped is reported every time. -/
def drain (l : Ledger) : List Association × Ledger :=
  let l := if 0 < l.ring.dropped then l.report (.relocationsLost l.ring.dropped) else l
  let (events, ring) := l.ring.drain
  (events.map (associate l.store), { l with ring })

/-! ## Persistence -/

/-- What is reported of a record that was refused. -/
def lostEvent (r : SegmentRecord) (e : StorageError) : Event :=
  match r.kind with
  | .bucket => .bucketLost r.number e
  | .associations => .associationsLost r.number e

/-- Hands a record to the sink, unless there is nothing in it: whether the sink took it, or `none`
after a crash. -/
def persist (r : SegmentRecord) (l : Ledger) (sink : S) : Option Bool × Ledger × S :=
  if r.size = 0 then (some true, l, sink)
  else
    match Sink.store sink r l with
    | (.done (), sink, l) => (some true, l, sink)
    | (.failed e, sink, l) => (some false, l.report (lostEvent r e), sink)
    | (.crashed, sink, l) => (none, l, sink)

/-- The time that history is trimmed against. -/
def trimTime (clock : Clock) (collectedAt : Int) : Int :=
  if (Timestamp.ofMicros? collectedAt).isSome then collectedAt else clock.today

/-- Trims history, if the tunables say so; tells whether the collector has survived it. -/
def trim (collectedAt : Int) (l : Ledger) (sink : S) : Bool × Ledger × S :=
  if l.tunables.retention = 0 then (true, l, sink)
  else
    match Sink.trim sink l.tunables.retention (trimTime l.clock collectedAt) l with
    | (.done t, sink, l) =>
      (true, if 0 < t.removed then l.report (.historyTrimmed t.removed t.freed t.remaining) else l,
        sink)
    | (.failed e, sink, l) => (true, l.report (.trimmingFailed e), sink)
    | (.crashed, sink, l) => (false, l, sink)

/-! ## Cycles -/

/-- Hands what was collected to the sink and trims history: the report, or `none` after a
crash. -/
def deliver (bucket : Nat) (copies : List Entry) (resolved : Nat)
    (associations : List Association) (l : Ledger) (sink : S) :
    Option CycleReport × Ledger × S :=
  let collectedAt := l.clock.now
  match persist (.bucket ⟨bucket, collectedAt, copies⟩) l sink with
  | (none, l, sink) => (none, l, sink)
  | (some first, l, sink) =>
    match persist (.associations ⟨bucket, collectedAt, associations⟩) l sink with
    | (none, l, sink) => (none, l, sink)
    | (some second, l, sink) =>
      match trim collectedAt l sink with
      | (false, l, sink) => (none, l, sink)
      | (true, l, sink) =>
        (some
          { bucket
            entries := copies.length
            resolved
            relocations := associations.length
            persisted := first && second },
          l.report (.cycleDone bucket copies.length resolved associations.length), sink)

/-- One collection: its report, or `none` after a crash. -/
def cycle (session : Session) (l : Ledger) (catalog : C) (sink : S) :
    Option CycleReport × Ledger × C × S :=
  let (bucket, copies, store) := l.store.close
  match identifyAll session copies { l with store } catalog with
  | ((copies, resolved), l, catalog) =>
    let (associations, l) := drain l
    match deliver bucket copies resolved associations l sink with
    | (report, l, sink) => (report, l, catalog, sink)

end Collector

end BlockLedger
