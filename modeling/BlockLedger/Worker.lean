import BlockLedger.Collector

/-
# The collector at work

The collector waits for signals.  It collects when it is woken and when nothing has arrived for a
whole interval, takes over new settings without collecting, and collects once more before it
leaves, which it does when it is told to or when nobody is left who could tell it.

A worker hosts the collector.  When the collector crashes, the worker waits for a while and then
goes on with a fresh one.  While it waits it takes over new settings and ignores being woken, and
it stops at once when it is told to.
-/

namespace BlockLedger

/-- What can be sent to a collector. -/
inductive Signal where
  /-- Collect now. -/
  | wake
  /-- Take over settings. -/
  | reload (settings : Settings)
  /-- Collect for the last time, and leave. -/
  | terminate
  deriving DecidableEq, Inhabited, Repr

/-- What waiting for a signal ends with. -/
inductive Arrival where
  | signal (s : Signal)
  /-- Nothing has arrived in time. -/
  | timeout
  /-- Nothing can arrive any more. -/
  | hangup
  deriving DecidableEq, Inhabited, Repr

/-- How a collector goes on. -/
inductive Conduct where
  | waits
  /-- It has collected for the last time. -/
  | leaves
  | crashes
  deriving DecidableEq, Inhabited, Repr

/-- A collector: its session, and what it can reach. -/
structure Collector (C S : Type) where
  session : Session
  ledger : Ledger
  catalog : C
  sink : S

namespace Collector

variable {C S : Type} [Catalog C] [Sink S]

/-- Collects once: the report, or `none` after a crash. -/
def collect (c : Collector C S) : Option CycleReport × Collector C S :=
  match cycle c.session c.ledger c.catalog c.sink with
  | (report, ledger, catalog, sink) => (report, { c with ledger, catalog, sink })

/-- Changes the ledger. -/
def withLedger (c : Collector C S) (f : Ledger → Ledger) : Collector C S :=
  { c with ledger := f c.ledger }

/-- Collects, and then goes on as given unless it crashes. -/
def collectThen (conduct : Conduct) (c : Collector C S) : Conduct × Collector C S :=
  match c.collect with
  | (some _, c) => (conduct, c)
  | (none, c) => (.crashes, c)

/-- Takes over new settings. -/
def reload (c : Collector C S) (s : Settings) : Collector C S :=
  c.withLedger fun l =>
    let l := l.reload s
    l.report (.settingsReloaded l.tunables)

/-- What a collector does about an arrival. -/
def answer (c : Collector C S) : Arrival → Conduct × Collector C S
  | .signal .wake | .timeout => c.collectThen .waits
  | .signal (.reload s) => (.waits, c.reload s)
  | .signal .terminate => (c.withLedger fun l => l.report .collectorLeaving).collectThen .leaves
  | .hangup => (c.withLedger fun l => l.report .collectorAbandoned).collectThen .leaves

/-- Answers arrivals until it leaves or crashes: how it ended, and the arrivals that it has not
seen.  After the last of them it is left alone. -/
def run : List Arrival → Collector C S → (Conduct × List Arrival) × Collector C S
  | [], c =>
    match c.answer .hangup with
    | (conduct, c) => ((conduct, []), c)
  | a :: rest, c =>
    match c.answer a with
    | (.waits, c) => run rest c
    | (conduct, c) => ((conduct, rest), c)

end Collector

/-! ## Workers -/

/-- The moment in the start of the database system from which on a worker may run. -/
inductive StartPhase where
  | serverStart
  | consistentState
  | afterRecovery
  deriving DecidableEq, Inhabited, Repr

namespace StartPhase

/-- The name of a phase in messages. -/
def label : StartPhase → String
  | serverStart => "ServerStart"
  | consistentState => "ConsistentState"
  | afterRecovery => "AfterRecovery"

end StartPhase

/-- How a worker is registered. -/
structure Registration where
  name : String := "smgrstat collector"
  /-- How long it waits after a crash. -/
  restartMillis : Nat := 10000
  phase : StartPhase := .afterRecovery
  needsSharedMemory : Bool := true
  needsDatabase : Bool := true
  deriving DecidableEq, Inhabited, Repr

/-- What a worker is doing. -/
inductive WorkerState where
  | collecting
  /-- It waits before it starts a fresh collector. -/
  | recovering
  | stopped
  deriving DecidableEq, Inhabited, Repr

/-- A worker with its collector. -/
structure Worker (C S : Type) where
  registration : Registration
  collector : Collector C S
  state : WorkerState := .collecting
  /-- How many collectors were started. -/
  built : Nat := 1

namespace Worker

variable {C S : Type} [Catalog C] [Sink S]

/-- Adds an event to the journal. -/
def report (w : Worker C S) (e : Event) : Worker C S :=
  { w with collector := w.collector.withLedger fun l => l.report e }

/-- A worker that has just started. -/
def start (registration : Registration) (collector : Collector C S) : Worker C S :=
  { registration, collector : Worker C S }.report
    (.collectorStarted registration.name registration.phase.label)

/-- Stops for good. -/
def stop (w : Worker C S) : Worker C S :=
  { w with state := .stopped }.report (.collectorStopped w.registration.name)

/-- Starts a fresh collector. -/
def rebuild (w : Worker C S) : Worker C S :=
  { w with state := .collecting, built := w.built + 1 }

/-- What follows a crash. -/
def recover (w : Worker C S) : Worker C S :=
  let w := w.report (.collectorCrashed w.registration.name w.registration.restartMillis)
  if w.registration.restartMillis = 0 then w.rebuild else { w with state := .recovering }

/-- What a worker does about an arrival. -/
def take (w : Worker C S) (a : Arrival) : Worker C S :=
  match w.state with
  | .collecting =>
    match w.collector.answer a with
    | (.waits, collector) => { w with collector }
    | (.leaves, collector) => { w with collector }.stop
    | (.crashes, collector) => { w with collector }.recover
  | .recovering =>
    match a with
    | .signal .wake => w
    | .signal (.reload s) => { w with collector := w.collector.withLedger fun l => l.reload s }
    | .signal .terminate | .hangup => w.stop
    | .timeout => w.rebuild
  | .stopped => w

/-- What a worker does about arrivals, one after the other. -/
def takeAll (w : Worker C S) (arrivals : List Arrival) : Worker C S := arrivals.foldl take w

/-- How long the worker waits for a signal, in milliseconds. -/
def patience (w : Worker C S) : Nat :=
  match w.state with
  | .collecting => 1000 * w.collector.ledger.tunables.interval
  | .recovering => w.registration.restartMillis
  | .stopped => 0

end Worker

end BlockLedger
