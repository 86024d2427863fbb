import BlockLedger.Bytes.Crc32
import BlockLedger.Event
import BlockLedger.Segment.Record
import BlockLedger.Zstd.Frame

/-
# Segment files

A segment file is a header of 20 bytes and a payload.  The header has a mark, the version of the
format, the kind of the record, a byte that is not used, and the length and the checksum of the
payload; the payload is the record's bytes, compressed.

Reading goes from the outside in: the header is checked field by field, then the length, then the
checksum.  Only a payload whose checksum fits is expanded and taken apart.  What follows the
payload is not looked at.
-/

namespace BlockLedger

namespace SegmentFile

/-- The mark that every segment file starts with, the letters `SMS1`. -/
def mark : List UInt8 := [0x53, 0x4D, 0x53, 0x31]

/-- The version of the format. -/
def version : Nat := 1

/-- The length of the header. -/
def headerSize : Nat := 20

/-- The header of a payload. -/
def header (kind : SegmentKind) (payload : List UInt8) : List UInt8 :=
  mark ++ LittleEndian.encode 2 version ++ [UInt8.ofNat kind.code, 0]
    ++ LittleEndian.encode 8 payload.length
    ++ LittleEndian.encode 4 (Crc32.checksum payload).toNat

/-- The file of a record, whose bytes may be compressed in any way. -/
def writeWith (compress : List UInt8 → List UInt8) (r : SegmentRecord) : List UInt8 :=
  header r.kind (compress r.bytes) ++ compress r.bytes

/-- The payload of a record. -/
def payload (r : SegmentRecord) : List UInt8 := Zstd.enclose r.bytes

/-- The file of a record. -/
def write (r : SegmentRecord) : List UInt8 := writeWith Zstd.enclose r

/-! ## Reading -/

/-- The number in a field of the header: `count` bytes from `start` on. -/
def field (data : List UInt8) (start count : Nat) : Nat :=
  LittleEndian.decode ((data.drop start).take count)

/-- Where the payload ends, by the length in the header. -/
def payloadEnd (data : List UInt8) : Nat := headerSize + field data 8 8

/-- Checks the header of a file and returns its payload. -/
def open? (expected : SegmentKind) (data : List UInt8) : Except Damage (List UInt8) :=
  if data.length < headerSize then .error .tooSmall
  else if data.take 4 ≠ mark then .error (.magic (data.take 4))
  else if field data 4 2 ≠ version then .error (.version (field data 4 2))
  else if SegmentKind.ofCode? (field data 6 1) ≠ some expected then
    .error (.kind expected (SegmentKind.ofCode? (field data 6 1)))
  else if data.length < payloadEnd data then .error .length
  else
    let payload := (data.drop headerSize).take (field data 8 8)
    if (Crc32.checksum payload).toNat = field data 16 4 then .ok payload else .error .checksum

/-- Reads the record in a file, and returns it with what is worth reporting.  `path` is what the
file is called in reports. -/
def read (path : String) (expected : SegmentKind) (data : List UInt8) :
    Except StorageError SegmentRecord × List Event :=
  match open? expected data with
  | .error damage => (.error (.corrupt damage), [])
  | .ok payload =>
    match Zstd.expand payload with
    | .error e => (.error (.inflate e), [])
    | .ok bytes =>
      match Wire.decode (SegmentRecord.reader expected) bytes with
      | .error e => (.error (.wire e), [.recordUnreadable path payload.length e])
      | .ok record => (.ok record, [])

end SegmentFile

end BlockLedger
