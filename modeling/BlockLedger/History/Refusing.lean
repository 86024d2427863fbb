import BlockLedger.History.Sink

/-
# Sinks that refuse

History on a disk that has run full: it can be told, for each of its operations, to refuse it.
-/

namespace BlockLedger

/-- History that refuses some of its operations. -/
structure RefusingHistory where
  history : History
  refusesBuckets : Bool := false
  refusesAssociations : Bool := false
  refusesTrimming : Bool := false

namespace RefusingHistory

instance : Inhabited RefusingHistory := ⟨{ history := default }⟩

/-- Whether a record is refused. -/
def refuses (h : RefusingHistory) : SegmentKind → Bool
  | .bucket => h.refusesBuckets
  | .associations => h.refusesAssociations

/-- Goes on with the history that is left by an operation. -/
def withHistory (h : RefusingHistory) (history : History) : RefusingHistory := { h with history }

instance : Sink RefusingHistory where
  store h record l :=
    if h.refuses record.kind then (.failed (.corrupt .diskFull), h, l)
    else
      match Sink.store h.history record l with
      | (outcome, history, l) => (outcome, h.withHistory history, l)
  trim h hours now l :=
    if h.refusesTrimming then (.failed (.corrupt .diskFull), h, l)
    else
      match Sink.trim h.history hours now l with
      | (outcome, history, l) => (outcome, h.withHistory history, l)

end RefusingHistory

end BlockLedger
