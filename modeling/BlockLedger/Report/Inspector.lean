import BlockLedger.Command.Disk
import BlockLedger.Command.Line
import BlockLedger.Report.Listing

/-
# The inspector

The program that shows what a segment or a folder of history holds.  Folders are told from files
first; a file must have the suffix and the name of a segment.
-/

namespace BlockLedger

/-- What a program leaves behind when it ends. -/
structure Ending where
  exitCode : Nat := 0
  out : String := ""
  err : String := ""
  deriving DecidableEq, Inhabited, Repr

namespace Inspector

/-- What the inspector is asked for. -/
structure Options where
  path : String := "."
  /-- How many entries are shown, 0 for all. -/
  top : Nat := 20
  json : Bool := false
  deriving DecidableEq, Inhabited, Repr

/-- The command line of the inspector. -/
def spec : CommandSpec where
  program := "smgrstatd-dump"
  about := "Inspect smgrstat history files"
  argument := some
    { name := "path", value := some "PATH", check := CommandOption.checkPath
      help := "Path to a segment file or a history directory" }
  options :=
    [{ name := "top", value := some "TOP", check := CommandOption.checkBy CommandOption.word64?
       help := "Number of entries shown per bucket, busiest first (0 = all)"
       otherwise := some "20" },
      { name := "json", help := "Output as JSON" }]

/-- The options that a command line gives. -/
def Options.ofGiven (g : Given) : Options :=
  let d : Options := {}
  { path := (g.get? "path").getD d.path
    top := ((g.get? "top").bind CommandOption.word64?).getD d.top
    json := 0 < g.count "json" }

/-- Why there is nothing to show. -/
inductive Failure where
  /-- The path leads neither to a folder nor to a file with the suffix of segments. -/
  | unknownInput (path : String)
  | notSegment (path : String)
  | unreadable (path : String) (error : StorageError)
  | unlisted (path : String) (fault : FileFault)
  deriving DecidableEq, Repr

namespace Failure

/-- The failure in words. -/
def message : Failure → String
  | unknownInput path => "Unknown file type: " ++ path
  | notSegment path => "Not a segment file name: " ++ path
  | unreadable path e => path ++ ": " ++ e.message
  | unlisted path e => "Cannot read " ++ path ++ ": " ++ e.message

end Failure

/-- The last name in a path, empty if it leads to a folder by dots. -/
def lastName (path : String) : String :=
  let name := (Disk.namesOf path).getLast?.getD ""
  if name = ".." then "" else name

/-- Whether a name has the suffix of segments: the suffix alone does not count. -/
def hasSuffix (name : String) : Bool :=
  name.endsWith SegmentName.suffix && name != SegmentName.suffix

/-- A document or lines as a text. -/
def output (json : Bool) (document : Json.Value) (lines : List String) : String :=
  if json then Json.render .indented 0 document ++ "\n"
  else String.join (lines.map fun l => l ++ "\n")

/-- What is shown. -/
def inspect (o : Options) (d : Disk) : Except Failure String :=
  if d.isFolder o.path then
    match d.folder o.path with
    | .ok f => .ok (output o.json (Report.folderValue o.path f) (Report.folderLines o.path f))
    | .error e => .error (.unlisted o.path e)
  else if !hasSuffix (lastName o.path) then .error (.unknownInput o.path)
  else
    match SegmentName.parse? (lastName o.path) with
    | none => .error (.notSegment o.path)
    | some name =>
      match d.read o.path with
      | .error e => .error (.unreadable o.path (.file e))
      | .ok data =>
        match (SegmentFile.read o.path name.kind data).1 with
        | .error e => .error (.unreadable o.path e)
        | .ok r =>
          .ok (output o.json (Report.segmentValue o.path o.top r)
            (Report.segmentLines o.path o.top r))

/-- Runs the inspector. -/
def run (args : List String) (d : Disk) : Ending :=
  match spec.parse args with
  | .mistake e => { exitCode := 2, err := "error: " ++ e.message ++ "\n" }
  | .help => { out := spec.help }
  | .version => { out := spec.versionLine }
  | .run given =>
    match inspect (.ofGiven given) d with
    | .ok text => { out := text }
    | .error e => { exitCode := 1, err := e.message ++ "\n" }

end Inspector

end BlockLedger
