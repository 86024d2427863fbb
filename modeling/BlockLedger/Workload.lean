import BlockLedger.Workload.Client

/-
# The workload

The workload creates the shared tables, starts its clients one after the other, and then has them
do statements in any order.  Every statement is a transaction of its own, at the end of which the
client catches up on identities.
-/

namespace BlockLedger

/-- Clients and what they share. -/
structure Workload where
  clients : List Client := []
  ledger : Ledger
  device : Device Unit := {}
  catalog : ListedCatalog

namespace Workload

/-- A client with what it shares. -/
def sceneOf (w : Workload) (c : Client) : Scene := ⟨c, w.ledger, w.device⟩

/-- Has a client do something in a transaction, and finish it as a piece of work.  If it fails and
may not, the transaction stays open. -/
def perform (w : Workload) (c : Client) (act : Statement Unit) (work : Work) (mayFail : Bool) :
    Except StatementError Unit × Client × Workload :=
  let c := { c with backend := c.backend.withSession Session.enter }
  let (result, s) :=
    match act (w.sceneOf c) with
    | .ok () s => (Except.ok (), s)
    | .error e s => (.error e, s)
  let w := { w with ledger := s.ledger, device := s.device }
  if result.isOk || mayFail then
    match s.client.backend.finish work w.ledger w.catalog with
    | (_, b, ledger, catalog) =>
      (result, { s.client with backend := b.withSession Session.leave },
        { w with ledger, catalog })
  else (result, s.client, w)

/-- The work of creating relations. -/
def creation : Work := .utility none true

/-- Replaces a client. -/
def withClient (w : Workload) (i : Nat) (c : Client) : Workload :=
  { w with clients := w.clients.set i c }

/-- A client leaves. -/
def retire (w : Workload) (c : Client) : Resolution × Client × Workload :=
  match c.backend.shutdown w.ledger w.catalog with
  | (resolution, backend, ledger, catalog) =>
    (resolution, { c with backend }, { w with ledger, catalog })

/-- Creates the shared tables, through a backend that leaves when it has done so. -/
def createTables (w : Workload) (p : Plan) : Except StatementError Unit × Workload :=
  let creating := Client.createAll p.tableBlocks p.sharedTables
  match w.perform (.new 0 [] 0 1) creating creation false with
  | (.ok (), c, w) => (.ok (), (w.retire c).2.2)
  | (.error e, _, w) => (.error e, w)

/-- Starts a client. -/
def startClient (w : Workload) (p : Plan) (concurrency : Nat) (id : UInt32) :
    Except StatementError Unit × Workload :=
  match w.perform (.new id p.sharedTables p.tableBlocks concurrency) Client.createScratch creation
    false with
  | (.ok (), c, w) => (.ok (), { w with clients := w.clients ++ [c] })
  | (.error e, _, w) => (.error e, w)

/-- Starts clients one after the other, up to the first that fails. -/
def startClients (p : Plan) (concurrency : Nat) :
    List UInt32 → Workload → Except StatementError Unit × Workload
  | [], w => (.ok (), w)
  | id :: rest, w =>
    match w.startClient p concurrency id with
    | (.ok (), w) => startClients p concurrency rest w
    | (.error e, w) => (.error e, w)

/-- Sets up the workload of a plan. -/
def setUp (p : Plan) (concurrency : Nat) (l : Ledger) : Except StatementError Unit × Workload :=
  match createTables { ledger := l, catalog := p.catalog } p with
  | (.ok (), w) => startClients p concurrency (Plan.below p.backends) w
  | (.error e, w) => (.error e, w)

/-- Has a client do a statement; nobody is there to do it if there is no such client. -/
def turn (w : Workload) (i : Nat) : Except StatementError Unit × Workload :=
  match w.clients[i]? with
  | none => (.ok (), w)
  | some c =>
    match w.perform c Client.statement .data true with
    | (result, c, w) => (result, w.withClient i c)

/-- Has a client leave. -/
def leave (w : Workload) (i : Nat) : Resolution × Workload :=
  match w.clients[i]? with
  | none => ({}, w)
  | some c =>
    match w.retire c with
    | (resolution, c, w) => (resolution, w.withClient i c)

end Workload

end BlockLedger
