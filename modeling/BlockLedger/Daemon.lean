import BlockLedger.Daemon.Notice
import BlockLedger.Daemon.Options
import BlockLedger.Host
import BlockLedger.Workload

/-
# The daemon

The daemon hosts the collector and drives the workload.  Its clients do their statements in rounds,
between which it rests for as long as the rate of statements asks; when it stops, the clients leave
first, so that the last collection has all that they have noted.

The workload and the collector share one ledger, which is with the workload unless the collector is
doing something.
-/

namespace BlockLedger

/-- The workload, the host of the collector, and what has been reported. -/
structure Daemon where
  workload : Workload
  host : Host ListedCatalog History
  notices : Array Daemon.Notice := #[]
  /-- How many rounds of statements were done. -/
  rounds : Nat := 0
  /-- How long the daemon has rested, in microseconds. -/
  rested : Nat := 0

namespace Daemon

/-! ## Parts -/

/-- Reports something. -/
def note (d : Daemon) (n : Notice) : Daemon := { d with notices := d.notices.push n }

/-- Takes over what has been reported to the journal. -/
def gather (d : Daemon) : Daemon :=
  let l := d.workload.ledger
  { d with
    notices := d.notices ++ l.journal.map .reported
    workload := { d.workload with ledger := { l with journal := #[] } } }

/-- Changes the workload. -/
def withWorkload (d : Daemon) (w : Workload) : Daemon := { d with workload := w }.gather

/-- Has the host do something. -/
def withHost (d : Daemon) (f : Host ListedCatalog History → Host ListedCatalog History) : Daemon :=
  let worker := d.host.worker
  let collector := worker.collector.withLedger fun _ => d.workload.ledger
  let host := f { d.host with worker := { worker with collector } }
  { d with host }.withWorkload { d.workload with ledger := host.worker.collector.ledger }

/-- History as it stands. -/
def history (d : Daemon) : History := d.host.worker.collector.sink

/-! ## Starting -/

/-- A daemon whose collector has been started. -/
def start (o : Options) (s : Settings) (history : History) (clock : Clock) : Daemon :=
  let ledger := Ledger.start s { clock with lag := o.latency }
  let catalog := o.plan.catalog
  let collector : Collector ListedCatalog History :=
    { session := Plan.session, ledger, catalog, sink := history }
  let host : Host ListedCatalog History := { worker := .start {} collector }
  { workload := { ledger := host.worker.collector.ledger, catalog }, host : Daemon }.gather

/-- Creates the shared tables; tells whether that went well. -/
def createTables (d : Daemon) (p : Plan) : Bool × Daemon :=
  let d := d.note (.chainReady (Client.chain.map Link.name))
  match d.workload.createTables p with
  | (.ok (), w) => (true, d.withWorkload w)
  | (.error e, w) => (false, (d.withWorkload w).note (.tablesFailed e))

/-- Starts a client.  One that does not start is missed by nobody. -/
def startClient (p : Plan) (concurrency : Nat) (d : Daemon) (id : UInt32) : Daemon :=
  match d.workload.startClient p concurrency id with
  | (.ok (), w) => d.withWorkload w
  | (.error e, w) => (d.withWorkload w).note (.clientFailed id e)

/-- Starts the clients. -/
def startClients (d : Daemon) (p : Plan) (concurrency : Nat) : Daemon :=
  ((Plan.below p.backends).foldl (startClient p concurrency) d).note
    (.clientsRunning p.backends.toNat)

/-! ## Running -/

/-- Reports what became of a statement of a client. -/
def noteStatement (d : Daemon) (result : Except StatementError Unit) (before after : Client) :
    Daemon :=
  let d :=
    match result with
    | .ok () => d
    | .error e => d.note (.statementFailed before.id e)
  if before.scratch = after.scratch then d
  else d.note (.scratchRelocated before.id before.scratch.locator after.scratch.locator)

/-- Has a client do a statement. -/
def turn (d : Daemon) (i : Nat) : Daemon :=
  match d.workload.turn i with
  | (result, w) =>
    match d.workload.clients[i]?, w.clients[i]? with
    | some before, some after => (d.withWorkload w).noteStatement result before after
    | _, _ => d.withWorkload w

/-- Has every client do a statement. -/
def round (d : Daemon) : Daemon :=
  let d := (List.range d.workload.clients.length).foldl turn d
  { d with rounds := d.rounds + 1 }

/-- Rests for some time, in microseconds.  The collector goes by whole milliseconds. -/
def rest (d : Daemon) (micros : Nat) : Daemon :=
  let rested := d.rested + micros
  let millis := rested / 1000 - d.rested / 1000
  let ledger := d.workload.ledger.advance micros
  let d : Daemon := { d with rested, workload := { d.workload with ledger } }
  if millis = 0 then d else d.withHost fun h => h.act (.pause millis)

/-- Does a number of rounds, with a rest after each, the last of which may be cut short. -/
def live (pause : Nat) : Nat → Nat → Daemon → Daemon
  | 0, _, d => d
  | rounds + 1, left, d => live pause rounds (left - pause) (d.round.rest (min pause left))

/-! ## Stopping -/

/-- A client leaves. -/
def leave (d : Daemon) (i : Nat) : Daemon :=
  match d.workload.clients[i]?, d.workload.leave i with
  | some c, (resolution, w) =>
    (d.withWorkload w).note (.clientLeft c.id d.rounds resolution.retained)
  | none, _ => d

/-- Tells the collector to leave, and waits for it. -/
def endCollector (d : Daemon) : Daemon := d.withHost fun h => h.run [.send .terminate]

/-- Stops: first the clients leave, then the collector. -/
def stop (d : Daemon) : Daemon :=
  let d := d.note .stopping
  let d := ((List.range d.workload.clients.length).foldl leave d).endCollector
  d.note (.stopped d.workload.ledger.store.size)

/-! ## Whole runs -/

/-- How often the daemon looks whether its time is up, in milliseconds. -/
def beat : Nat := 100

/-- When a daemon stops, in milliseconds after its clients were started, and what it then reports:
it is interrupted at once, but sees only at the next beat that its time is up.  One that is never
to stop is taken to be interrupted at the start. -/
def lifetime (duration interrupt : Option Nat) : Nat × List Notice :=
  let deadline := duration.map fun seconds => max beat (1000 * seconds)
  match deadline, interrupt with
  | some t, none => (t, [.elapsed])
  | some t, some i =>
    if t ≤ i then (t, [.elapsed])
    else if t ≤ (i / beat + 1) * beat then (i, [.interrupted, .elapsed])
    else (i, [.interrupted])
  | none, some i => (i, [.interrupted])
  | none, none => (0, [.interrupted])

/-- What a run of the daemon leaves behind. -/
structure Run where
  exitCode : Nat := 0
  /-- What is written besides notices. -/
  out : String := ""
  err : String := ""
  /-- The notices that are shown. -/
  notices : List Notice := []
  disk : Disk

/-- A daemon at work, and the place of its history on a disk. -/
structure Site where
  daemon : Daemon
  disk : Disk
  place : List String

namespace Site

/-- What a run leaves behind when the daemon has stopped. -/
def finish (s : Site) (o : Options) (exitCode : Nat) : Run :=
  { exitCode
    notices := s.daemon.notices.toList.filter (Notice.shown o.level)
    disk :=
      match s.daemon.history.folder with
      | some f => s.disk.withFolder s.place f
      | none => s.disk }

end Site

/-- What a run comes to that fails before anything is done. -/
def refused (o : Options) (d : Disk) (notices : List Notice) : Run :=
  { exitCode := 1, notices := notices.filter (Notice.shown o.level), disk := d }

/-- What a daemon reports before it opens history. -/
def opening (o : Options) (s : Settings) : List Notice :=
  [.starting (spec.version.getD ""), .configured s o.output, .planned o.plan o.rate]

/-- Makes sure that the folder of history is there: the disk then, and the place of the folder. -/
def makeFolder (o : Options) (d : Disk) : Except FileFault (Disk × List String) := do
  let d ← d.createFolder o.output
  return (d, ← d.placeOf o.output)

/-- Opens the history at a place, starts the collector, creates the tables, and starts the
clients. -/
def launch (o : Options) (s : Settings) (disk : Disk) (place : List String) (clock : Clock) :
    Except Run Site :=
  let history := History.start { base := o.output, folder := some (disk.folderAt place) }
  let d := start o s history clock
  let opened := opening o s ++ [Notice.historyReady o.output]
  let d := { d with notices := opened.toArray ++ d.notices }
  match d.createTables o.plan with
  | (true, d) => .ok ⟨d.startClients o.plan s.concurrency, disk, place⟩
  | (false, d) => .error ((Site.mk d.endCollector disk place).finish o 1)

/-- Prepares a daemon as its options ask; a daemon that cannot be prepared has already run. -/
def prepare (o : Options) (d : Disk) (clock : Clock) : Except Run Site :=
  match o.settings d with
  | .error e => .error (refused o d [.settingsRefused e])
  | .ok s =>
    if !o.feasible then .error (refused o d [.infeasible])
    else
      match makeFolder o d with
      | .error fault => .error (refused o d (opening o s ++ [.historyUnavailable o.output fault]))
      | .ok (d, place) => launch o s d place clock

/-- Runs a daemon until its time is up or it is interrupted, a number of milliseconds after its
clients were started. -/
def perform (o : Options) (d : Disk) (clock : Clock) (interrupt : Option Nat) : Run :=
  match prepare o d clock with
  | .error r => r
  | .ok s =>
    let (millis, ending) := lifetime o.duration interrupt
    let micros := 1000 * millis
    let pause := max o.pause 1
    let daemon := live pause ((micros + pause - 1) / pause) micros s.daemon
    { s with daemon := (ending.foldl note daemon).stop : Site }.finish o 0

/-- Runs the daemon as its command line asks. -/
def run (args : List String) (disk : Disk) (clock : Clock) (interrupt : Option Nat) : Run :=
  match spec.parse args with
  | .mistake e => { exitCode := 2, err := "error: " ++ e.message ++ "\n", disk }
  | .help => { out := spec.help, disk }
  | .version => { out := spec.versionLine, disk }
  | .run given => perform (.ofGiven given) disk clock interrupt

end Daemon

end BlockLedger
