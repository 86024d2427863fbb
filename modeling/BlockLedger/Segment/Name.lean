import BlockLedger.Number.Natural
import BlockLedger.Segment.Fault
import BlockLedger.Time.Reading

/-
# Names of segment files

The name of a segment file tells its kind, the second at which it was collected and the number of
its bucket.  History is listed, sorted and thrown away by the names alone.
-/

namespace BlockLedger

/-- What the name of a segment file tells. -/
structure SegmentName where
  kind : SegmentKind
  written : Timestamp
  bucket : Nat
  deriving DecidableEq, Inhabited, Repr

namespace SegmentName

/-- What all names of segment files end in. -/
def suffix : String := ".zst"

/-- The name as it is written. -/
def text (n : SegmentName) : String :=
  n.kind.lead ++ n.written.fileText ++ "_b" ++ toString n.bucket ++ suffix

/-- The name for a record collected at a time in microseconds.  A time that the calendar does not
hold is written as the start of 1970. -/
def ofRecord (kind : SegmentKind) (collectedAt : Int) (bucket : Nat) : SegmentName :=
  ⟨kind, (Timestamp.ofMicros? collectedAt).getD ⟨0, false⟩, bucket⟩

/-- What comes after `lead`, if a text starts with it. -/
def dropLead : List Char → List Char → Option (List Char)
  | [], cs => some cs
  | _ :: _, [] => none
  | c :: lead, d :: cs => if c = d then dropLead lead cs else none

/-- What comes before `tail`, if a text ends with it. -/
def dropTail (tail cs : List Char) : Option (List Char) :=
  (dropLead tail.reverse cs.reverse).map List.reverse

/-- The parts of a text before and after the last `_b` in it. -/
def splitLast : List Char → Option (List Char × List Char)
  | [] => none
  | c :: cs =>
    match splitLast cs with
    | some (before, after) => some (c :: before, after)
    | none => (dropLead ['_', 'b'] (c :: cs)).map fun after => ([], after)

/-- The number of a bucket: decimal digits, of any number, below `2 ^ 64`; a plus sign may stand in
front. -/
def readBucket (cs : List Char) : Option Nat :=
  let ds := match cs with
    | '+' :: rest => rest
    | cs => cs
  if ds.isEmpty || !ds.all Char.isDigit then none
  else
    let n := Timestamp.digitsValue ds
    if n < 2 ^ 64 then some n else none

/-- The kind that the start of a name tells, and the rest of the name. -/
def readKind (cs : List Char) : Option (SegmentKind × List Char) :=
  match dropLead SegmentKind.bucket.lead.toList cs with
  | some rest => some (.bucket, rest)
  | none => (dropLead SegmentKind.associations.lead.toList cs).map (SegmentKind.associations, ·)

/-- Reads the name of a file; `none` if it is not that of a segment. -/
def parse? (name : String) : Option SegmentName := do
  let (kind, rest) ← readKind name.toList
  let stem ← dropTail suffix.toList rest
  let (time, bucket) ← splitLast stem
  let written ← Timestamp.read? time
  let bucket ← readBucket bucket
  return ⟨kind, written, bucket⟩

/-- The order of segments in history: by time, then by bucket, the bucket's entries before its
associations. -/
def le (a b : SegmentName) : Bool :=
  if a.written ≠ b.written then a.written.le b.written
  else a.bucket < b.bucket || (a.bucket == b.bucket && a.kind.code ≤ b.kind.code)

end SegmentName

end BlockLedger
