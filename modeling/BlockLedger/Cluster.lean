import BlockLedger.Collector
import BlockLedger.Storage.Chain

/-
# The cluster

Any number of backends, each with a chain of links of its own, share a ledger, a device and a
catalog; the collector drains the ledger into its sink.  A run of the cluster is a sequence of the
actions below, each of which is carried out without any other in between.
-/

namespace BlockLedger

/-- A backend with its chain. -/
structure Member where
  backend : Backend
  chain : List Link

/-- Backends, what they share, and the collector. -/
structure Cluster (P C S : Type) where
  members : List Member
  ledger : Ledger
  device : Device P := {}
  catalog : C
  /-- The session of the collector. -/
  session : Session
  sink : S

namespace Cluster

variable {P C S : Type}

/-- Changes the ledger. -/
def withLedger (s : Cluster P C S) (f : Ledger → Ledger) : Cluster P C S :=
  { s with ledger := f s.ledger }

/-- Replaces a backend. -/
def withBackend (s : Cluster P C S) (i : Nat) (b : Backend) : Cluster P C S :=
  { s with members := s.members.modify i fun m => { m with backend := b } }

/-- What a member can reach. -/
def siteOf (s : Cluster P C S) (m : Member) : Site P := ⟨m.backend, s.ledger, s.device⟩

/-- Takes over what a member has left behind. -/
def withSite (s : Cluster P C S) (i : Nat) (site : Site P) : Cluster P C S :=
  { s.withBackend i site.backend with ledger := site.ledger, device := site.device }

/-- A member sends a request along its chain. -/
def call (blank : P) (s : Cluster P C S) (i : Nat) (q : Request P) :
    Except CallError (List P) × Cluster P C S :=
  match s.members[i]? with
  | none => (.error (.unhandled q.operation.name), s)
  | some m =>
    match Chain.call blank m.chain q (s.siteOf m) with
    | (result, site) => (result, s.withSite i site)

/-- An asynchronous read of a member has ended. -/
def complete (s : Cluster P C S) (i : Nat) (handle : Handle) (result : Completion) :
    Completion × Cluster P C S :=
  match s.members[i]? with
  | none => (result, s)
  | some m =>
    match Chain.complete m.chain handle result (s.siteOf m) with
    | (result, site) => (result, s.withSite i site)

/-- Changes the session of a member. -/
def withSession (s : Cluster P C S) (i : Nat) (f : Session → Session) : Cluster P C S :=
  { s with members := s.members.modify i fun m => { m with backend := m.backend.withSession f } }

variable [Catalog C] [Sink S]

/-- A member has finished a piece of work. -/
def finish (s : Cluster P C S) (i : Nat) (work : Work) : Resolution × Cluster P C S :=
  match s.members[i]? with
  | none => ({}, s)
  | some m =>
    match m.backend.finish work s.ledger s.catalog with
    | (resolution, b, ledger, catalog) =>
      (resolution, { s.withBackend i b with ledger, catalog })

/-- A member leaves. -/
def shutdown (s : Cluster P C S) (i : Nat) : Resolution × Cluster P C S :=
  match s.members[i]? with
  | none => ({}, s)
  | some m =>
    match m.backend.shutdown s.ledger s.catalog with
    | (resolution, b, ledger, catalog) =>
      (resolution, { s.withBackend i b with ledger, catalog })

/-- The collector collects: its report, or `none` after a crash. -/
def cycle (s : Cluster P C S) : Option CycleReport × Cluster P C S :=
  match Collector.cycle s.session s.ledger s.catalog s.sink with
  | (report, ledger, catalog, sink) => (report, { s with ledger, catalog, sink })

end Cluster

end BlockLedger
