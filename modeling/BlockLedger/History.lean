import BlockLedger.History.Folder
import BlockLedger.Segment.File

/-
# History

History is a folder of segments.  A segment is first written under another name and then renamed,
so that no partial segment ever bears the name of one; what interrupted writes left behind is
removed when history is opened.  Old segments are told by their names alone, and thrown away
without being opened.
-/

namespace BlockLedger

/-- A segment in a listing. -/
structure ListedSegment where
  /-- The name of the file. -/
  file : String
  name : SegmentName
  /-- The number of bytes in the file. -/
  size : Nat
  deriving DecidableEq, Inhabited, Repr

/-- What trimming history came to. -/
structure Trimming where
  removed : Nat := 0
  /-- How many bytes the removed segments had. -/
  freed : Nat := 0
  remaining : Nat := 0
  deriving DecidableEq, Inhabited, Repr

/-- A folder of segments, if it is there. -/
structure History where
  /-- What the folder is called in reports. -/
  base : String
  folder : Option Folder := none
  /-- How the bytes of a record are compressed. -/
  compress : List UInt8 → List UInt8 := Zstd.enclose

namespace History

instance : Inhabited History := ⟨{ base := "" }⟩

/-- What a file of the folder is called in reports. -/
def path (h : History) (file : String) : String :=
  if h.base.endsWith "/" then h.base ++ file else h.base ++ "/" ++ file

/-! ## Opening -/

/-- What the names of files that are being written end in. -/
def draftSuffix : String := ".tmp"

/-- Whether a name is one of a file that is being written: the suffix alone is not. -/
def isDraft (file : String) : Bool := file.endsWith draftSuffix && file != draftSuffix

/-- Removes what interrupted writes have left behind.  What cannot be removed stays. -/
def sweep (f : Folder) : List String → Folder
  | [] => f
  | file :: rest =>
    match (if isDraft file then f.remove file else .ok f) with
    | .ok f => sweep f rest
    | .error _ => sweep f rest

/-- Opens history, creating its folder if need be. -/
def start (h : History) : History :=
  let f := h.folder.getD {}
  { h with folder := some (sweep f f.names) }

/-! ## Segments -/

/-- The name under which a segment is written: its own with another suffix. -/
def draftName (n : SegmentName) : String :=
  n.kind.lead ++ n.written.fileText ++ "_b" ++ toString n.bucket ++ draftSuffix

/-- The steps in which a record is stored. -/
def writeSteps (compress : List UInt8 → List UInt8) (r : SegmentRecord) : List Folder.Step :=
  let draft := draftName r.name
  let payload := compress r.bytes
  [.create draft, .append draft (SegmentFile.header r.kind payload), .append draft payload,
    .sync draft, .rename draft r.name.text]

/-- What is reported of a record that has been stored. -/
def storedEvent (h : History) (r : SegmentRecord) : Event :=
  let path := h.path r.name.text
  match r.kind with
  | .bucket => .bucketStored path r.number r.size
  | .associations => .associationsStored path r.number r.size

/-- Stores a record: the failure, if there was one, what is worth reporting, and history
afterwards. -/
def store (h : History) (r : SegmentRecord) : Option StorageError × List Event × History :=
  match h.folder with
  | none => (some (.file .notFound), [], h)
  | some f =>
    match f.run (writeSteps h.compress r) with
    | (none, f) => (none, [h.storedEvent r], { h with folder := some f })
    | (some e, f) => (some (.file e), [], { h with folder := some f })

/-- Reads the record of a segment. -/
def read (h : History) (file : String) (kind : SegmentKind) :
    Except StorageError SegmentRecord × List Event :=
  match h.folder with
  | none => (.error (.file .notFound), [])
  | some f =>
    match f.read file with
    | .error e => (.error (.file e), [])
    | .ok data => SegmentFile.read (h.path file) kind data

/-- The segments of a folder, oldest first.  Names that are not those of segments do not count, but
a folder with such a name does. -/
def listFolder (f : Folder) : List ListedSegment :=
  (f.names.filterMap fun file => do
    let name ← SegmentName.parse? file
    let node ← f.find? file
    return { file, name, size := node.size }).mergeSort fun a b => a.name.le b.name

/-- The segments, oldest first. -/
def list (h : History) : Except FileFault (List ListedSegment) :=
  match h.folder with
  | none => .error .notFound
  | some f => .ok (listFolder f)

/-! ## Trimming -/

/-- What came of trimming. -/
inductive TrimOutcome where
  | done (trimming : Trimming)
  | failed (error : StorageError)
  /-- The calendar does not hold the time before which segments are to be removed. -/
  | outOfCalendar
  deriving DecidableEq, Repr

/-- Removes the segments of a list that were written before a time. -/
def trimAll (path : String → String) (limit : Int) :
    List ListedSegment → Folder → Trimming × List Event × Folder
  | [], f => ({}, [], f)
  | s :: rest, f =>
    if s.name.written.before limit then
      match f.remove s.file with
      | .ok f =>
        match trimAll path limit rest f with
        | (t, events, f) =>
          ({ t with removed := t.removed + 1, freed := t.freed + s.size }, events, f)
      | .error e =>
        match trimAll path limit rest f with
        | (t, events, f) =>
          ({ t with remaining := t.remaining + 1 }, .segmentKept (path s.file) e :: events, f)
    else
      match trimAll path limit rest f with
      | (t, events, f) => ({ t with remaining := t.remaining + 1 }, events, f)

/-- The time `hours` before `now`, both in microseconds. -/
def limit (now : Int) (hours : Nat) : Int := now - 3600000000 * hours

/-- Removes the segments that were written more than `hours` before `now`; 0 hours keep all. -/
def trim (h : History) (hours : Nat) (now : Int) : TrimOutcome × List Event × History :=
  match h.folder with
  | none => (.failed (.file .notFound), [], h)
  | some f =>
    let segments := listFolder f
    if hours = 0 then (.done { remaining := segments.length }, [], h)
    else if (Timestamp.ofMicros? (limit now hours)).isNone then (.outOfCalendar, [], h)
    else
      match trimAll h.path (limit now hours) segments f with
      | (t, events, f) => (.done t, events, { h with folder := some f })

end History

end BlockLedger
