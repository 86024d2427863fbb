import BlockLedger.History
import BlockLedger.Report.Segment

/-
# Reports on a folder

What a folder of history holds: how many segments of either kind there are, how much room they
take, which time they span, and a line for each of them with what can be read of it.
-/

namespace BlockLedger

namespace Report

open Json (Value)

/-- How many segments of a kind there are. -/
def countOf (segments : List ListedSegment) (kind : SegmentKind) : Nat :=
  segments.countP fun s => s.name.kind == kind

/-- How much room segments take. -/
def totalSize (segments : List ListedSegment) : Nat := segments.foldl (· + ·.size) 0

/-- What can be read of a segment. -/
def contents (f : Folder) (s : ListedSegment) : String :=
  match ({ base := "", folder := some f } : History).read s.file s.name.kind with
  | (.ok r, _) =>
    toString r.size ++ (match r.kind with
      | .bucket => " entries"
      | .associations => " assocs")
  | (.error e, _) => "unreadable: " ++ e.message

/-- A segment as a line. -/
def segmentLine (f : Folder) (s : ListedSegment) : String :=
  "  " ++ Figure.left 44 s.file ++ " " ++ Figure.right 10 (Figure.size s.size) ++ " "
    ++ contents f s

/-- The line on the time that segments span. -/
def rangeLines (segments : List ListedSegment) : List String :=
  match segments.head?, segments.getLast? with
  | some first, some last =>
    ["Range:      " ++ first.name.written.text ++ " .. " ++ last.name.written.text]
  | _, _ => []

/-- The lines on what interrupted writes have left behind. -/
def draftLines (f : Folder) : List String :=
  let drafts := f.names.countP History.isDraft
  if drafts = 0 then [] else ["", "  " ++ toString drafts ++ " leftover .tmp file(s)"]

/-- The report on a folder as lines. -/
def folderLines (path : String) (f : Folder) : List String :=
  let segments := History.listFolder f
  ["Directory:  " ++ path,
    "Segments:   " ++ toString (countOf segments .bucket) ++ " buckets, "
      ++ toString (countOf segments .associations) ++ " relfile",
    "Total size: " ++ Figure.size (totalSize segments)]
    ++ rangeLines segments ++ [""] ++ segments.map (segmentLine f) ++ draftLines f

/-- A segment as a document. -/
def listedValue (s : ListedSegment) : Value :=
  .object
    [("file", .text s.file), ("kind", .text s.name.kind.word),
      ("bucket_id", .natural s.name.bucket), ("written_at", .text s.name.written.text),
      ("size", .natural s.size)]

/-- The report on a folder as a document. -/
def folderValue (path : String) (f : Folder) : Value :=
  let segments := History.listFolder f
  let time (s : ListedSegment) : Value := .text s.name.written.text
  .object
    [("path", .text path), ("buckets", .natural (countOf segments .bucket)),
      ("relfile_segments", .natural (countOf segments .associations)),
      ("total_size", .natural (totalSize segments)), ("first", .ofOption time segments.head?),
      ("last", .ofOption time segments.getLast?), ("segments", .array (segments.map listedValue))]

end Report

end BlockLedger
