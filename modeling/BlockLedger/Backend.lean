import BlockLedger.Identify.Bulk
import BlockLedger.Identify.Pending
import BlockLedger.Storage.Slots

/-
# Backends

A backend serves one session.  What it keeps to itself is its session, its run detector, the keys
whose entries it created and that still need an identity, and the slots of its asynchronous reads;
everything else lies in the ledger.  After each piece of work it catches up on identities, and
before it leaves it hands out the runs that are still open.
-/

namespace BlockLedger

/-- What a backend keeps to itself. -/
structure Backend where
  session : Session
  runs : Runs := {}
  /-- The keys whose entries need an identity, oldest first. -/
  pending : List Key := []
  slots : Slots
  /-- The class tables of new databases, if the backend has access to them. -/
  classes : Option ClassPages := none

/-- A piece of work that a backend has finished. -/
inductive Work where
  /-- A statement that changed or read data. -/
  | data
  /-- Any other statement.  `created` names a new database with its default tablespace. -/
  | utility (created : Option (Oid × Oid)) (succeeded : Bool)
  deriving DecidableEq, Inhabited, Repr

namespace Backend

/-- A backend of a session that keeps a number of asynchronous reads apart. -/
def new (session : Session) (concurrency : Nat) : Backend :=
  { session, slots := .new concurrency }

/-- Changes the session. -/
def withSession (b : Backend) (f : Session → Session) : Backend :=
  { b with session := f b.session }

/-- Makes sure that a key has an entry, and remembers it if the entry is new. -/
def register (b : Backend) (l : Ledger) (key : Key) : Backend × Ledger :=
  match l.store.ensure key with
  | (store, true) => ({ b with pending := Pending.add b.session b.pending key }, { l with store })
  | (store, false) => (b, { l with store })

variable {C : Type} [Catalog C]

/-- Goes through the pending keys. -/
def resolvePending (b : Backend) (l : Ledger) (catalog : C) :
    Resolution × Backend × Ledger × C :=
  match Pending.settleAll b.session b.pending l catalog with
  | ((kept, resolved), l, catalog) =>
    (⟨resolved, kept.length⟩, { b with pending := kept }, l, catalog)

/-- Gives identities to the entries of a database that was created. -/
def resolveCreated (b : Backend) (database tablespace : Oid) (l : Ledger) (catalog : C) :
    Ledger × C :=
  match b.classes with
  | none => (l.report (.bulkUnavailable database), catalog)
  | some pages =>
    match Bulk.resolveDatabase pages database tablespace l catalog with
    | (.ok n, l, catalog) => (l.report (.bulkDone database n), catalog)
    | (.error e, l, catalog) => (l.report (.bulkFailed database e), catalog)

/-- What a backend does when it has finished a piece of work. -/
def finish (b : Backend) (work : Work) (l : Ledger) (catalog : C) :
    Resolution × Backend × Ledger × C :=
  match work with
  | .utility (some (database, tablespace)) true =>
    match b.resolveCreated database tablespace l catalog with
    | (l, catalog) => b.resolvePending l catalog
  | _ => b.resolvePending l catalog

/-- Counts the open runs whose keys have entries, and forgets all about runs. -/
def flushRuns (b : Backend) (l : Ledger) : Nat × Backend × Ledger :=
  let recorded := b.runs.openRuns.filter fun run => (l.store.find? run.key).isSome
  (recorded.length, { b with runs := {} },
    { l with store := recorded.foldl Store.endRun l.store })

/-- The last thing a backend does. -/
def shutdown (b : Backend) (l : Ledger) (catalog : C) : Resolution × Backend × Ledger × C :=
  match b.flushRuns l with
  | (runs, b, l) =>
    match b.resolvePending l catalog with
    | (resolution, b, l, catalog) =>
      (resolution, b,
        l.report (.backendLeft runs resolution.resolved resolution.retained), catalog)

end Backend

end BlockLedger
