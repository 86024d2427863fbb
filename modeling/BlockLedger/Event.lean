import BlockLedger.Catalog
import BlockLedger.Relation.Relocation
import BlockLedger.Segment.Fault
import BlockLedger.Settings

/-
# Events worth reporting

Whatever the parts of the program report about their work is an event with its facts.  How urgent
an event is and how it reads is decided here, in one place.
-/

namespace BlockLedger

/-- How urgent an event is. -/
inductive Level where
  | trace
  | debug
  | info
  | warn
  | error
  deriving DecidableEq, Inhabited, Repr

namespace Level

/-- The name of a level in front of a line. -/
def label : Level → String
  | trace => "TRACE"
  | debug => "DEBUG"
  | info => "INFO"
  | warn => "WARN"
  | error => "ERROR"

/-- Levels as numbers, the most urgent with the greatest. -/
def rank : Level → Nat
  | trace => 0
  | debug => 1
  | info => 2
  | warn => 3
  | error => 4

end Level

/-- Something that happened and that is worth a line. -/
inductive Event where
  /-- The ring had no room for a relocation. -/
  | relocationDropped (relocation : Relocation)
  /-- Relocations have been dropped since the start. -/
  | relocationsLost (dropped : Nat)
  | intervalClamped (requested applied : Nat)
  | lookupRefused (key : Key) (reason : Refusal)
  | lookupFailed (key : Key) (error : CatalogError)
  /-- The collector's own look-up failed. -/
  | collectorLookupFailed (key : Key) (error : CatalogError)
  | schemaFailed (schema : Oid) (error : CatalogError)
  /-- The entries of a new database were gone through. -/
  | databaseScanned (database : Oid) (pages resolved : Nat)
  | bulkUnavailable (database : Oid)
  | bulkDone (database : Oid) (resolved : Nat)
  | bulkFailed (database : Oid) (error : CatalogError)
  | backendLeft (runs resolved unresolved : Nat)
  | bucketStored (path : String) (bucket entries : Nat)
  | associationsStored (path : String) (bucket associations : Nat)
  | bucketLost (bucket : Nat) (error : StorageError)
  | associationsLost (bucket : Nat) (error : StorageError)
  | recordUnreadable (path : String) (payload : Nat) (error : WireError)
  | segmentKept (path : String) (fault : FileFault)
  | historyTrimmed (removed freed remaining : Nat)
  | trimmingFailed (error : StorageError)
  | cycleDone (bucket entries resolved relocations : Nat)
  | settingsReloaded (tunables : Tunables)
  | collectorLeaving
  | collectorAbandoned
  | collectorStarted (name phase : String)
  | collectorCrashed (name : String) (restartMillis : Nat)
  | collectorStopped (name : String)
  | signalDropped
  deriving DecidableEq

namespace Event

/-- A message with its facts, each written as a name and a value. -/
def withFacts (message : String) (facts : List (String × String)) : String :=
  " ".intercalate (message :: facts.map fun (name, value) => name ++ "=" ++ value)

/-- A span of time given in milliseconds: in seconds from one second on, with as many places as
needed. -/
def spanText (millis : Nat) : String :=
  if millis = 0 then "0ns"
  else if millis < 1000 then toString millis ++ "ms"
  else
    let rest := millis % 1000
    let places :=
      if rest = 0 then ""
      else if rest % 100 = 0 then "." ++ toString (rest / 100)
      else if rest % 10 = 0 then
        "." ++ (if rest < 100 then "0" else "") ++ toString (rest / 10)
      else "." ++ (if rest < 10 then "00" else if rest < 100 then "0" else "") ++ toString rest
    toString (millis / 1000) ++ places ++ "s"

/-- How urgent an event is. -/
def level : Event → Level
  | lookupRefused .. => .trace
  | relocationDropped .. | relocationsLost .. | lookupFailed .. | collectorLookupFailed ..
  | databaseScanned .. | bulkUnavailable .. | bulkDone .. | backendLeft .. | bucketStored ..
  | associationsStored .. | collectorLeaving => .debug
  | historyTrimmed .. | cycleDone .. | settingsReloaded .. | collectorStarted ..
  | collectorStopped .. => .info
  | intervalClamped .. | schemaFailed .. | bulkFailed .. | recordUnreadable .. | segmentKept ..
  | trimmingFailed .. | collectorAbandoned | signalDropped => .warn
  | bucketLost .. | associationsLost .. | collectorCrashed .. => .error

/-- The message of an event, with its facts. -/
def message : Event → String
  | relocationDropped r =>
    withFacts "relfile association queue full, dropping entry"
      [("old", r.source.text), ("new", r.target.text), ("fork", "\"" ++ r.fork.name ++ "\"")]
  | relocationsLost n =>
    withFacts "relfile events dropped since startup" [("dropped", toString n)]
  | intervalClamped requested applied =>
    withFacts "collection interval out of range, clamped"
      [("requested", toString requested), ("applied", toString applied)]
  | lookupRefused key reason =>
    withFacts "metadata lookup refused" [("key", key.text), ("reason", reason.message)]
  | lookupFailed key e =>
    withFacts "metadata lookup failed" [("key", key.text), ("error", e.message)]
  | collectorLookupFailed key e =>
    withFacts "collector metadata lookup failed" [("key", key.text), ("error", e.message)]
  | schemaFailed schema e =>
    withFacts "namespace lookup failed" [("nsp", toString schema), ("error", e.message)]
  | databaseScanned database pages resolved =>
    withFacts "resolved new database entries"
      [("db", toString database), ("pages", toString pages), ("resolved", toString resolved)]
  | bulkUnavailable database =>
    withFacts "no raw catalog, skipping bulk resolution" [("db", toString database)]
  | bulkDone database resolved =>
    withFacts "bulk metadata resolution done"
      [("db", toString database), ("resolved", toString resolved)]
  | bulkFailed database e =>
    withFacts "bulk metadata resolution failed" [("db", toString database), ("error", e.message)]
  | backendLeft runs resolved unresolved =>
    withFacts "backend shutdown"
      [("runs", toString runs), ("resolved", toString resolved),
        ("unresolved", toString unresolved)]
  | bucketStored path bucket entries =>
    withFacts "bucket persisted"
      [("path", path), ("bucket", toString bucket), ("entries", toString entries)]
  | associationsStored path bucket associations =>
    withFacts "relfile associations persisted"
      [("path", path), ("bucket", toString bucket), ("assocs", toString associations)]
  | bucketLost bucket e =>
    withFacts "failed to persist bucket, data lost"
      [("bucket", toString bucket), ("error", e.message)]
  | associationsLost bucket e =>
    withFacts "failed to persist relfile associations, data lost"
      [("bucket", toString bucket), ("error", e.message)]
  | recordUnreadable path payload e =>
    withFacts "segment: record deserialization failed"
      [("path", path), ("payload_len", toString payload), ("error", e.message)]
  | segmentKept path fault =>
    withFacts "failed to remove expired segment" [("path", path), ("error", fault.message)]
  | historyTrimmed removed freed remaining =>
    withFacts "history retention applied"
      [("removed", toString removed), ("bytes_freed", toString freed),
        ("remaining", toString remaining)]
  | trimmingFailed e => withFacts "history retention failed" [("error", e.message)]
  | cycleDone bucket entries resolved relocations =>
    withFacts "collection cycle complete"
      [("bucket", toString bucket), ("entries", toString entries),
        ("resolved", toString resolved), ("relfile_events", toString relocations)]
  | settingsReloaded t =>
    withFacts "collector settings reloaded"
      [("interval", toString t.interval), ("track_temp_tables", t.tempTracking.label),
        ("retention_hours", toString t.retention)]
  | collectorLeaving => "collector terminating, running final cycle"
  | collectorAbandoned => "collector signal channel closed, running final cycle"
  | collectorStarted name phase =>
    withFacts "collector started" [("name", name), ("start_phase", phase)]
  | collectorCrashed name millis =>
    withFacts "collector crashed" [("name", name), ("restart_in", spanText millis)]
  | collectorStopped name => withFacts "collector stopped" [("name", name)]
  | signalDropped => "collector is not running, signal dropped"

/-- An event as one line, its level in front. -/
def line (e : Event) : String := e.level.label ++ " " ++ e.message

end Event

end BlockLedger
