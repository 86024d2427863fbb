import BlockLedger.Backend
import BlockLedger.Storage.Device

/-
# Chains of links

A backend's requests to its storage pass through a chain of links.  The last link carries them out
on the device.  A counting link passes a request on and, once it has come back successful, counts
it in the ledger; other links only pass on.  A request that meets no link that carries it out
fails.

An asynchronous read is special: its completion may not create anything, so its entry is created,
and its place in a run decided, when it is submitted.
-/

namespace BlockLedger

/-- A link of a chain. -/
inductive Link where
  /-- Counts what passes. -/
  | counting
  /-- Carries requests out on the device. -/
  | device
  /-- Passes everything on. -/
  | passing (name : String)
  deriving DecidableEq, Inhabited, Repr

namespace Link

/-- The name of a link. -/
def name : Link → String
  | counting => "smgr_stats"
  | device => "mem"
  | passing name => name

end Link

/-- What a request of one backend can reach. -/
structure Site (P : Type) where
  backend : Backend
  ledger : Ledger
  device : Device P

namespace Site

variable {P : Type}

/-- The key that I/O of a request is counted under, if it is. -/
def trackingKey (s : Site P) (relation : Relation) (fork : Fork) : Option Key :=
  s.ledger.trackingKey ⟨relation.locator, fork⟩ relation.temporary

/-- Makes sure that a key has an entry. -/
def register (s : Site P) (key : Key) : Site P :=
  match s.backend.register s.ledger key with
  | (backend, ledger) => { s with backend, ledger }

/-- Makes sure that a fork is known in the ledger, if it is tracked. -/
def introduce (s : Site P) (relation : Relation) (fork : Fork) : Site P :=
  match s.trackingKey relation fork with
  | some key => s.register key
  | none => s

/-- Changes the entry of a key, which is created if need be. -/
def update (s : Site P) (key : Key) (f : Entry → Entry) : Site P :=
  let s := s.register key
  { s with ledger := s.ledger.withStore fun store => store.modify key f }

/-- Decides how an access continues the one before it.  Runs are told apart by the fork itself,
whatever key they are counted under. -/
def classify (s : Site P) (real key : Key) (block count : BlockNumber) (d : Direction) :
    Access × Site P :=
  match s.backend.runs.check real block count d with
  | (access, runs) =>
    let runs := if key = real then runs else runs.accountUnder real key
    (access, { s with backend := { s.backend with runs } })

/-- Counts a read or a write that has been carried out. -/
def account (s : Site P) (q : Request P) (block count : BlockNumber) (d : Direction) : Site P :=
  match s.trackingKey q.relation q.fork with
  | none => s
  | some key =>
    match s.classify q.key key block count d with
    | (access, s) =>
      s.update key fun e =>
        e.account d count.toNat s.ledger.clock.lag access s.ledger.clock.now

/-- Counts some other change of a fork. -/
def bump (s : Site P) (q : Request P) (f : Entry → Entry) : Site P :=
  match s.trackingKey q.relation q.fork with
  | none => s
  | some key => s.update key fun e => (f e).touch s.ledger.clock.now

/-- Whether the creation of a fork is the relocation of a relation. -/
def relocates (q : Request P) (old : Locator) : Bool :=
  !q.relation.temporary && old.number != 0 && old.number != q.relation.locator.number

/-- Counts a request that has been carried out. -/
def count (s : Site P) (q : Request P) : Site P :=
  match q.operation with
  | .attach => s.introduce q.relation .main
  | .create old redo =>
    let s :=
      if relocates q old then
        { s with ledger := (s.ledger.relocate ⟨old, q.relation.locator, q.fork, redo⟩).1 }
      else s
    s.introduce q.relation q.fork
  | .read block n => s.account q block (UInt32.ofNat n) .read
  | .submit .. => s
  | .write block pages => s.account q block (UInt32.ofNat pages.length) .write
  | .append .. =>
    s.bump q fun e =>
      { e with extensions := e.extensions + 1, extendedBlocks := e.extendedBlocks + 1 }
  | .lengthen _ n =>
    s.bump q fun e =>
      { e with extensions := e.extensions + 1, extendedBlocks := e.extendedBlocks + n.toNat }
  | .truncate _ => s.bump q fun e => { e with truncations := e.truncations + 1 }
  | .sync => s.bump q fun e => { e with syncs := e.syncs + 1 }

/-- Stages an asynchronous read that is about to be submitted. -/
def stage (s : Site P) (q : Request P) (handle : Handle) (block : BlockNumber) : Site P :=
  match s.trackingKey q.relation q.fork with
  | none =>
    { s with
      backend := { s.backend with
        slots := s.backend.slots.stage handle.id fun staged => { staged with tracked := false } } }
  | some key =>
    match (s.register key).classify q.key key block handle.blocks .read with
    | (access, s) =>
      { s with
        backend := { s.backend with
          slots := s.backend.slots.stage handle.id fun _ =>
            { started := true, access, key := some key, tracked := true } } }

/-- What a counting link does before it passes a request on. -/
def prepare (s : Site P) (q : Request P) : Site P :=
  match q.operation with
  | .submit handle block => s.stage q handle block
  | _ => s

/-- Counts the completion of an asynchronous read.  A read that failed is not counted, but the run
that it ended when it was submitted is. -/
def settle (s : Site P) (handle : Handle) (result : Completion) : Site P :=
  match s.backend.slots.get? handle.id with
  | some { tracked := true, key := some key, access, started } =>
    { s with
      ledger := s.ledger.withStore fun store =>
        store.modify key fun e =>
          if result.isOk then
            e.account .read handle.blocks.toNat (if started then s.ledger.clock.lag else 0) access
              s.ledger.clock.now
          else e.withTraffic .read fun t => t.endRun access.ended }
  | _ => s

end Site

namespace Chain

variable {P : Type}

/-- Sends a request along a chain: the pages that were read, and the site afterwards. -/
def call (blank : P) : List Link → Request P → Site P → Except CallError (List P) × Site P
  | [], q, s => (.error (.unhandled q.operation.name), s)
  | .device :: _, q, s =>
    match s.device.perform blank q with
    | .ok (pages, device) => (.ok pages, { s with device })
    | .error e => (.error e, s)
  | .passing _ :: rest, q, s => call blank rest q s
  | .counting :: rest, q, s =>
    match call blank rest q (s.prepare q) with
    | (.ok pages, s) => (.ok pages, s.count q)
    | (.error e, s) => (.error e, s)

/-- Tells a chain that an asynchronous read has ended: every counting link takes note, and the
result stays what it was. -/
def complete : List Link → Handle → Completion → Site P → Completion × Site P
  | [], _, result, s => (result, s)
  | .counting :: rest, handle, result, s => complete rest handle result (s.settle handle result)
  | _ :: rest, handle, result, s => complete rest handle result s

end Chain

end BlockLedger
