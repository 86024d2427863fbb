import BlockLedger.Segment.Name
import BlockLedger.Wire.Record

/-
# Records of history

What one collection leaves behind is at most two records, one of either kind of segment.
-/

namespace BlockLedger

/-- A record of either kind. -/
inductive SegmentRecord where
  | bucket (record : BucketRecord)
  | associations (record : AssociationRecord)
  deriving DecidableEq

namespace SegmentRecord

instance : Inhabited SegmentRecord := ⟨.bucket default⟩

/-- The kind of a record. -/
def kind : SegmentRecord → SegmentKind
  | bucket _ => .bucket
  | associations _ => .associations

/-- The number of the bucket that a record belongs to. -/
def number : SegmentRecord → Nat
  | bucket r => r.bucket
  | associations r => r.bucket

/-- When a record was collected. -/
def collectedAt : SegmentRecord → Int
  | bucket r => r.collectedAt
  | associations r => r.collectedAt

/-- How many entries or associations a record has. -/
def size : SegmentRecord → Nat
  | bucket r => r.entries.length
  | associations r => r.associations.length

/-- The bytes of a record. -/
def bytes : SegmentRecord → List UInt8
  | bucket r => Wire.ofBucket r
  | associations r => Wire.ofAssociations r

/-- Reads a record of a given kind. -/
def reader : SegmentKind → Wire.Reader SegmentRecord
  | .bucket => do return bucket (← Wire.bucket)
  | .associations => do return associations (← Wire.associations)

/-- The name of the segment that a record is stored in. -/
def name (r : SegmentRecord) : SegmentName := .ofRecord r.kind r.collectedAt r.number

end SegmentRecord

end BlockLedger
