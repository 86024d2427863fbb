import BlockLedger.Command.Disk
import BlockLedger.Command.Line
import BlockLedger.Event
import BlockLedger.Settings.File
import BlockLedger.Workload.Plan

/-
# Options of the daemon

What the command line of the daemon chooses: where history goes, how big the workload is, and when
to stop.  Tunables that are given there win over the settings file, which must hold acceptable
settings all the same.
-/

namespace BlockLedger

namespace Daemon

/-- What the daemon is asked to do. -/
structure Options where
  /-- The folder of history. -/
  output : String := "./smgrstat-data"
  settingsFile : Option String := none
  interval : Option Nat := none
  retention : Option Nat := none
  tempTracking : Option TempTracking := none
  plan : Plan := {}
  /-- How many statements a client does in a second. -/
  rate : Nat := 100
  /-- How long the storage takes for a call, in microseconds. -/
  latency : Nat := 50
  /-- After how many seconds the daemon stops by itself. -/
  duration : Option Nat := none
  /-- How many degrees of detail are reported on top of the usual. -/
  verbosity : Nat := 0
  /-- Only errors are reported. -/
  quiet : Bool := false
  deriving DecidableEq, Inhabited, Repr

/-- An option whose value is a number of 32 bits. -/
def wordOption (name : String) (letter : Option Char) (value help : String)
    (otherwise : Option String) : CommandOption :=
  { name, letter, value := some value, check := CommandOption.checkBy CommandOption.word32?, help,
    otherwise }

/-- An option whose value is a number of 64 bits. -/
def longOption (name value help : String) (otherwise : Option String) : CommandOption :=
  { name, value := some value, check := CommandOption.checkBy CommandOption.word64?, help,
    otherwise }

/-- The command line of the daemon. -/
def spec : CommandSpec where
  program := "smgrstatd"
  about := "Storage I/O statistics host"
  version := some "0.1.0"
  options :=
    [{ name := "output-dir", letter := some 'o', value := some "OUTPUT_DIR"
       check := CommandOption.checkPath, help := "Output directory for history segments"
       otherwise := some "./smgrstat-data" },
      { name := "config", letter := some 'c', value := some "CONFIG"
        check := CommandOption.checkPath
        help := "JSON settings file. Re-read when its modification time changes" },
      wordOption "interval" (some 'i') "INTERVAL"
        "Collection interval in seconds (overrides the settings file)" none,
      wordOption "retention-hours" none "RETENTION_HOURS"
        "History retention in hours, 0 keeps everything (overrides the settings file)" none,
      { name := "track-temp", value := some "TRACK_TEMP"
        check := CommandOption.checkBy TempTracking.ofWord?
        help := "Temporary table tracking: off, individual or aggregate "
          ++ "(overrides the settings file)" },
      wordOption "backends" (some 'b') "BACKENDS" "Number of synthetic backends" (some "4"),
      wordOption "tables" none "TABLES" "Number of shared tables the backends scan" (some "8"),
      wordOption "table-blocks" none "TABLE_BLOCKS" "Size of each shared table in blocks"
        (some "1024"),
      wordOption "rate" none "RATE" "Statements per second per backend" (some "100"),
      longOption "io-latency-us" "IO_LATENCY_US"
        "Simulated storage latency per read and write, in microseconds" (some "50"),
      longOption "duration" "DURATION"
        "Stop after this many seconds instead of waiting for Ctrl-C" none,
      { name := "verbose", letter := some 'v', counted := true
        help := "Increase logging verbosity (-v for debug, -vv for trace). "
          ++ "Default is info level" },
      { name := "quiet", letter := some 'q', help := "Quiet mode - only show errors" }]

namespace Options

/-- The options that a command line gives. -/
def ofGiven (g : Given) : Options :=
  let d : Options := {}
  let word (name : String) : Option Nat := (g.get? name).bind CommandOption.word32?
  let long (name : String) : Option Nat := (g.get? name).bind CommandOption.word64?
  { output := (g.get? "output-dir").getD d.output
    settingsFile := g.get? "config"
    interval := word "interval"
    retention := word "retention-hours"
    tempTracking := (g.get? "track-temp").bind TempTracking.ofWord?
    plan :=
      { backends := ((word "backends").map UInt32.ofNat).getD d.plan.backends
        tables := ((word "tables").map UInt32.ofNat).getD d.plan.tables
        tableBlocks := ((word "table-blocks").map UInt32.ofNat).getD d.plan.tableBlocks }
    rate := (word "rate").getD d.rate
    latency := (long "io-latency-us").getD d.latency
    duration := long "duration"
    verbosity := g.count "verbose"
    quiet := 0 < g.count "quiet" }

/-- The least urgent level that is reported. -/
def level (o : Options) : Level :=
  if o.quiet then .error
  else
    match o.verbosity with
    | 0 => .info
    | 1 => .debug
    | _ => .trace

/-- Settings with the tunables that the options give. -/
def adjust (o : Options) (s : Settings) : Settings :=
  { s with
    interval := o.interval.getD s.interval
    retention := o.retention.getD s.retention
    tempTracking := o.tempTracking.getD s.tempTracking }

/-- The settings to run with.  The settings file must be acceptable by itself. -/
def settings (o : Options) (d : Disk) : Except Settings.LoadError Settings := do
  let s ←
    match o.settingsFile with
    | some path => Settings.load (d.read path)
    | none => pure {}
  (o.adjust s).check

/-- Whether there is anything for the workload to do. -/
def feasible (o : Options) : Bool :=
  o.plan.backends != 0 && o.plan.tables != 0 && 4 ≤ o.plan.tableBlocks

/-- The time between two statements of a client, in microseconds. -/
def pause (o : Options) : Nat := 1000000 / max o.rate 1

end Options

end Daemon

end BlockLedger
