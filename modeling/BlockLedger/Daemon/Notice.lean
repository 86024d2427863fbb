import BlockLedger.Event
import BlockLedger.Json.Printer
import BlockLedger.Settings.File
import BlockLedger.Workload.Client

/-
# Notices of the daemon

The daemon reports what its parts report and what becomes of itself: how it is configured, how the
workload goes, and how it stops.
-/

namespace BlockLedger

namespace StatementError

/-- The failure in words. -/
def message : StatementError → String
  | call e => e.message
  | noTables => "no shared tables"

end StatementError

namespace Daemon

/-- Something that the daemon reports. -/
inductive Notice where
  | reported (event : Event)
  | settingsRefused (error : Settings.LoadError)
  /-- There is nothing for the workload to do. -/
  | infeasible
  | starting (version : String)
  | configured (settings : Settings) (output : String)
  | planned (plan : Plan) (rate : Nat)
  | historyUnavailable (path : String) (fault : FileFault)
  | historyReady (path : String)
  | chainReady (links : List String)
  | tablesFailed (error : StatementError)
  | clientFailed (client : UInt32) (error : StatementError)
  | clientsRunning (count : Nat)
  | statementFailed (client : UInt32) (error : StatementError)
  | scratchRelocated (client : UInt32) (source target : Locator)
  | interrupted
  | elapsed
  | stopping
  | clientLeft (client : UInt32) (statements unresolved : Nat)
  | stopped (entries : Nat)
  deriving DecidableEq

namespace Notice

/-- How urgent a notice is. -/
def level : Notice → Level
  | reported e => e.level
  | settingsRefused _ | infeasible | historyUnavailable .. | tablesFailed _ | clientFailed .. =>
    .error
  | statementFailed .. => .warn
  | chainReady _ | scratchRelocated .. => .debug
  | starting _ | configured .. | planned .. | historyReady _ | clientsRunning _ | interrupted
  | elapsed | stopping | clientLeft .. | stopped _ => .info

/-- The message of a notice, with its facts. -/
def message : Notice → String
  | reported e => e.message
  | settingsRefused e => "Invalid settings: " ++ e.message
  | infeasible => "Need at least one backend, one table and four blocks per table"
  | starting version => "smgrstatd " ++ version ++ " starting"
  | configured s output =>
    "Config: interval=" ++ toString s.interval ++ "s, retention=" ++ toString s.retention
      ++ "h, temp tables=" ++ s.tempTracking.label ++ ", output=" ++ output
  | planned p rate =>
    "Workload: " ++ toString p.backends ++ " backends, " ++ toString p.tables ++ " tables x "
      ++ toString p.tableBlocks ++ " blocks, " ++ toString rate ++ " statements/s each"
  | historyUnavailable path fault => "Cannot open " ++ path ++ ": " ++ fault.message
  | historyReady path => "History stored at " ++ path
  | chainReady links =>
    Event.withFacts "storage manager chain"
      [("links", "[" ++ ", ".intercalate (links.map Json.quoted) ++ "]")]
  | tablesFailed e => "Failed to create tables: " ++ e.message
  | clientFailed client e =>
    Event.withFacts "backend failed to start"
      [("backend", toString client), ("error", e.message)]
  | clientsRunning count => toString count ++ " backends running"
  | statementFailed client e =>
    Event.withFacts "statement failed" [("backend", toString client), ("error", e.message)]
  | scratchRelocated client source target =>
    Event.withFacts "scratch table rewritten"
      [("backend", toString client), ("old", source.text), ("new", target.text)]
  | interrupted => "Received shutdown signal"
  | elapsed => "Duration elapsed"
  | stopping => "Shutting down..."
  | clientLeft client statements unresolved =>
    Event.withFacts "backend exited"
      [("backend", toString client), ("statements", toString statements),
        ("unresolved", toString unresolved)]
  | stopped entries => Event.withFacts "Shutdown complete" [("entries", toString entries)]

/-- A notice as one line, its level in front. -/
def line (n : Notice) : String := n.level.label ++ " " ++ n.message

/-- Whether a notice is shown when notices from a level on are. -/
def shown (least : Level) (n : Notice) : Bool := least.rank ≤ n.level.rank

end Notice

end Daemon

end BlockLedger
