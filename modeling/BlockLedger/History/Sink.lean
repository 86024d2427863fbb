import BlockLedger.History
import BlockLedger.Ledger

/-
# Sinks

What is collected goes to a sink.  History is one; others refuse what they are given, or only keep
note of it.  A sink sees the ledger, and an operation of a sink may also end in a crash, which
takes the collector with it.
-/

namespace BlockLedger

/-- What came of an operation of a sink. -/
inductive Outcome (α : Type) where
  | done (value : α)
  | failed (error : StorageError)
  | crashed
  deriving DecidableEq, Repr

/-- Where records go. -/
class Sink (S : Type) where
  /-- Stores a record. -/
  store : S → SegmentRecord → Ledger → Outcome Unit × S × Ledger
  /-- Removes what was stored more than a number of hours before a time in microseconds. -/
  trim : S → Nat → Int → Ledger → Outcome Trimming × S × Ledger

namespace Ledger

/-- Adds events to the journal. -/
def reportAll (l : Ledger) (events : List Event) : Ledger := events.foldl report l

end Ledger

instance : Sink History where
  store h record l :=
    match h.store record with
    | (none, events, h) => (.done (), h, l.reportAll events)
    | (some e, events, h) => (.failed e, h, l.reportAll events)
  trim h hours now l :=
    match h.trim hours now with
    | (.done trimming, events, h) => (.done trimming, h, l.reportAll events)
    | (.failed e, events, h) => (.failed e, h, l.reportAll events)
    | (.outOfCalendar, events, h) => (.crashed, h, l.reportAll events)

end BlockLedger
