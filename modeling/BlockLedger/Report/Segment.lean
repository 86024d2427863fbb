import BlockLedger.Json.Printer
import BlockLedger.Report.Figure
import BlockLedger.Segment.Record

/-
# Reports on a segment

What a segment holds, as a table for readers or as a JSON document.  Of a bucket the busiest
entries come first, and those with equally many blocks in the order of the segment.
-/

namespace BlockLedger

namespace Report

open Json (Value)

/-- The name of a relation, or a question mark. -/
def relationName (i : Identity) : String :=
  if i.valid = false then "?"
  else if i.schema.isEmpty then i.name
  else i.schema ++ "." ++ i.name

/-- How many blocks were moved or added. -/
def blocks (e : Entry) : Nat := e.reads.blocks + e.writes.blocks + e.extendedBlocks

/-- The busiest entries, as many as `top` tells; 0 stands for all. -/
def busiest (entries : List Entry) (top : Nat) : List Entry :=
  let sorted := entries.mergeSort fun a b => blocks b ≤ blocks a
  if top = 0 then sorted else sorted.take top

/-- A percentile of latencies that is known to be asked for properly. -/
def percentile (h : Histogram) (p : Float) : Option Nat :=
  match h.percentile p with
  | .ok n => n
  | .error _ => none

/-! ## Tables -/

/-- What every report on a segment starts with. -/
def heading (file : String) (r : SegmentRecord) : List String :=
  let what := match r.kind with
    | .bucket => "Entries:    "
    | .associations => "Assocs:     "
  ["File:       " ++ file, "Bucket:     " ++ toString r.number,
    "Collected:  " ++ Timestamp.microsText r.collectedAt, what ++ toString r.size, ""]

/-- A row of the table of entries: a key, a relation, and figures. -/
def row (key relation : String) (figures : List (Nat × String)) : String :=
  "  " ++ " ".intercalate
    (Figure.left 22 key :: Figure.left 28 relation
      :: figures.map fun (width, s) => Figure.right width s)

/-- The head of the table of entries. -/
def tableHead : List String :=
  [row "Key" "Relation" [(8, "Reads"), (8, "Writes"), (6, "Seq%"), (8, "R p50"), (8, "R p99"),
    (8, "W p50"), (8, "W p99"), (6, "Active")],
    "  " ++ String.ofList (List.replicate 132 '─')]

/-- An entry as a row of the table. -/
def entryRow (e : Entry) : String :=
  let time (h : Histogram) (p : Float) : Nat × String := (8, Figure.latency (percentile h p))
  let sequential := Figure.share (e.reads.sequential + e.writes.sequential)
    (e.reads.count + e.writes.count)
  row e.key.text (relationName e.identity)
    [(8, toString e.reads.count), (8, toString e.writes.count),
      (6, Figure.right 5 (Decimal.fixed 1 sequential) ++ "%"),
      time e.reads.latency 0.5, time e.reads.latency 0.99, time e.writes.latency 0.5,
      time e.writes.latency 0.99, (6, Figure.right 5 (toString e.activeSeconds) ++ "s")]

/-- The name that an association gives to its relation, if its identity is known. -/
def associationName (a : Association) : Option String :=
  a.identity.map fun i => i.schema ++ "." ++ i.name

/-- An association as a line. -/
def associationLine (a : Association) : String :=
  "  " ++ Figure.left 22 a.source.text ++ " -> " ++ Figure.left 22 a.target.text ++ " "
    ++ Figure.left 5 a.fork.name ++ " " ++ (associationName a).getD "?"
    ++ if a.redo then " (redo)" else ""

/-- The report on a segment as lines. -/
def segmentLines (file : String) (top : Nat) (r : SegmentRecord) : List String :=
  heading file r
    ++ match r with
      | .bucket b => tableHead ++ (busiest b.entries top).map entryRow
      | .associations a => a.associations.map associationLine

/-! ## Documents -/

/-- Latencies as a document. -/
def latencyValue (h : Histogram) : Value :=
  let reached (p : Float) : Value :=
    .ofOption (fun n => .double (Float.ofNat n)) (percentile h p)
  .object
    [("count", .natural h.count), ("min_us", .ofOption .natural h.least?),
      ("max_us", .natural h.greatest), ("mean_us", .ofOption .double h.mean?),
      ("p50_us", reached 0.5), ("p95_us", reached 0.95), ("p99_us", reached 0.99)]

/-- An entry as a document. -/
def entryValue (e : Entry) : Value :=
  .object
    [("key", .text e.key.text), ("name", .text (relationName e.identity)),
      ("relkind", .ofOption (fun k => .text (String.singleton k.letter)) e.identity.kind),
      ("reads", .natural e.reads.count), ("read_blocks", .natural e.reads.blocks),
      ("writes", .natural e.writes.count), ("write_blocks", .natural e.writes.blocks),
      ("extends", .natural e.extensions), ("extend_blocks", .natural e.extendedBlocks),
      ("truncates", .natural e.truncations), ("fsyncs", .natural e.syncs),
      ("sequential_reads", .natural e.reads.sequential),
      ("random_reads", .natural e.reads.random),
      ("sequential_writes", .natural e.writes.sequential),
      ("random_writes", .natural e.writes.random),
      ("read_latency", latencyValue e.reads.latency),
      ("write_latency", latencyValue e.writes.latency),
      ("read_iat_cv", .double e.reads.gaps.variation),
      ("write_iat_cv", .double e.writes.gaps.variation),
      ("mean_read_run", .double e.reads.runs.mean.toFloat),
      ("mean_write_run", .double e.writes.runs.mean.toFloat),
      ("active_seconds", .natural e.activeSeconds),
      ("first_access", .text (Timestamp.microsText e.firstAccess)),
      ("last_access", .text (Timestamp.microsText e.lastAccess))]

/-- An association as a document. -/
def associationValue (a : Association) : Value :=
  .object
    [("old", .text a.source.text), ("new", .text a.target.text), ("fork", .text a.fork.name),
      ("is_redo", .bool a.redo), ("name", .ofOption .text (associationName a))]

/-- The report on a segment as a document. -/
def segmentValue (file : String) (top : Nat) (r : SegmentRecord) : Value :=
  .object
    ([("file", .text file), ("bucket_id", .natural r.number),
      ("collected_at", .text (Timestamp.microsText r.collectedAt))]
      ++ match r with
        | .bucket b =>
          [("entry_count", .natural b.entries.length),
            ("entries", .array ((busiest b.entries top).map entryValue))]
        | .associations a => [("assocs", .array (a.associations.map associationValue))])

end Report

end BlockLedger
