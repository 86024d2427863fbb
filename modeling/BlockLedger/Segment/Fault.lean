/-
# What can go wrong with stored records

A record is stored in a segment file: a header and a compressed payload.  Reading one can fail in
the file system, at the header or at the payload's checksum, in decompression, or when the bytes
are taken apart into a record.
-/

namespace BlockLedger

/-- The two kinds of segments. -/
inductive SegmentKind where
  /-- The entries of a closed bucket. -/
  | bucket
  /-- The associations collected together with it. -/
  | associations
  deriving DecidableEq, Inhabited, Repr

namespace SegmentKind

/-- The number that stands for a kind in a header. -/
def code : SegmentKind → Nat
  | bucket => 1
  | associations => 2

/-- The kind that a number in a header stands for. -/
def ofCode? (n : Nat) : Option SegmentKind := [bucket, associations].find? fun k => k.code == n

/-- The name of a kind in messages. -/
def label : SegmentKind → String
  | bucket => "Bucket"
  | associations => "Relfile"

/-- The kind's name in listings. -/
def word : SegmentKind → String
  | bucket => "bucket"
  | associations => "relfile"

/-- What the names of segment files of a kind start with. -/
def lead : SegmentKind → String
  | bucket => "smgrstat_"
  | associations => "relfile_"

theorem ofCode?_code (k : SegmentKind) : ofCode? k.code = some k := by
  cases k <;> rfl

end SegmentKind

/-- Why the file system refuses. -/
inductive FileFault where
  | notFound
  | occupied
  | notDirectory
  | isDirectory
  deriving DecidableEq, Inhabited, Repr

namespace FileFault

/-- The refusal in words. -/
def message : FileFault → String
  | notFound => "No such file or directory (os error 2)"
  | occupied => "File exists (os error 17)"
  | notDirectory => "Not a directory (os error 20)"
  | isDirectory => "Is a directory (os error 21)"

end FileFault

/-- Why bytes cannot be taken apart into a record. -/
inductive WireError where
  /-- The bytes end within the record. -/
  | ended
  /-- A number goes on for longer than any number of its width. -/
  | number
  | bool
  | option
  | text
  /-- A number stands for no alternative of the type. -/
  | alternative
  deriving DecidableEq, Inhabited, Repr

namespace WireError

/-- The failure in words. -/
def message : WireError → String
  | ended => "Hit the end of buffer, expected more data"
  | number => "Found a varint that didn't terminate. Is the usize too big for this platform?"
  | bool => "Found a bool that wasn't 0 or 1"
  | option => "Found an Option discriminant that wasn't 0 or 1"
  | text => "Tried to parse invalid utf-8"
  | alternative => "Serde Deserialization Error"

end WireError

/-- Why compressed bytes cannot be expanded. -/
inductive InflateError where
  /-- The bytes do not start like a frame. -/
  | unknownFrame
  /-- The bytes end within a frame. -/
  | incomplete
  /-- The frame asks for something that is not supported. -/
  | unsupported
  /-- The frame asks for more memory than is granted. -/
  | window
  /-- The frame needs a dictionary. -/
  | dictionary
  /-- The checksum of the content does not fit. -/
  | checksum
  /-- The frame contradicts itself. -/
  | damaged
  deriving DecidableEq, Inhabited, Repr

namespace InflateError

/-- The failure in words. -/
def message : InflateError → String
  | unknownFrame => "Unknown frame descriptor"
  | incomplete => "incomplete frame"
  | unsupported => "Unsupported frame parameter"
  | window => "Frame requires too much memory for decoding"
  | dictionary => "Dictionary mismatch"
  | checksum => "Restored data doesn't match checksum"
  | damaged => "Data corruption detected"

end InflateError

/-- What is wrong with the header or the payload of a segment. -/
inductive Damage where
  | tooSmall
  | magic (bytes : List UInt8)
  | version (number : Nat)
  | kind (expected : SegmentKind) (present : Option SegmentKind)
  | length
  | checksum
  /-- There was no room to write it. -/
  | diskFull
  deriving DecidableEq, Inhabited, Repr

namespace Damage

/-- Bytes as numbers in brackets. -/
def bytesText (bytes : List UInt8) : String :=
  "[" ++ ", ".intercalate (bytes.map fun b => toString b.toNat) ++ "]"

/-- The damage in words. -/
def message : Damage → String
  | tooSmall => "file too small for header"
  | magic bytes => "invalid magic: expected SMS1, got " ++ bytesText bytes
  | version number => "unsupported version: " ++ toString number
  | kind expected present =>
    "expected " ++ expected.label ++ " segment, got "
      ++ (match present with
          | some k => "Some(" ++ k.label ++ ")"
          | none => "None")
  | length => "payload extends past end of file"
  | checksum => "payload checksum mismatch"
  | diskFull => "disk full"

end Damage

/-- Why a record could not be stored or read. -/
inductive StorageError where
  | file (fault : FileFault)
  | inflate (error : InflateError)
  | wire (error : WireError)
  | corrupt (damage : Damage)
  deriving DecidableEq, Inhabited, Repr

namespace StorageError

/-- The failure in words. -/
def message : StorageError → String
  | file fault => "I/O error: " ++ fault.message
  | inflate error => "I/O error: " ++ error.message
  | wire error => "serialization error: " ++ error.message
  | corrupt damage => "corrupt segment: " ++ damage.message

end StorageError

end BlockLedger
