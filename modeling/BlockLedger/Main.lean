import BlockLedger.Daemon
import BlockLedger.Report.Inspector
import Std.Time

/-
# The program

The program is the daemon, and the inspector if its first argument is `dump`.  Here it meets the
outside world: files are read into a disk before anything is decided and written back afterwards,
and the daemon's rests are real ones.  An interrupt ends it at once, with what has been collected.
-/

namespace BlockLedger

namespace Program

/-- Adds what a path leads to. -/
def load (d : Disk) (path : String) : IO Disk := do
  let p := (← IO.currentDir) / path
  if ← p.isDir then
    match Daemon.makeFolder { output := path } d with
    | .error _ => return d
    | .ok (d, place) =>
      let mut f : Folder := {}
      for e in ← p.readDir do
        let n ← if ← e.path.isDir then pure Node.folder
          else pure (Node.file (← IO.FS.readBinFile e.path).toList)
        f := f.put e.fileName n
      return d.withFolder place f
  else if ← p.pathExists then
    let n := Node.file (← IO.FS.readBinFile p).toList
    return (d.putAt path n).toOption.getD d
  else return d

/-- Writes what has been added to a folder and removes what has gone from it. -/
def save (path : String) (before after : Folder) : IO Unit := do
  let p := (← IO.currentDir) / path
  for name in after.names do
    if let some (.file bytes) := after.find? name then
      if (before.find? name).isNone then
        let draft := p / (name ++ History.draftSuffix)
        IO.FS.writeBinFile draft bytes.toByteArray
        IO.FS.rename draft (p / name)
  for name in before.names do
    if (after.find? name).isNone then IO.FS.removeFile (p / name)

/-- The time, in microseconds since 1970. -/
def now : IO Int := do
  let t ← Std.Time.Timestamp.now
  return t.toNanosecondsSinceUnixEpoch.val / 1000

/-- Writes notices, each with the time. -/
def tell (notices : List Daemon.Notice) : IO Unit := do
  let t ← now
  for n in notices do
    IO.println (Timestamp.microsText t ++ " " ++ Figure.right 5 n.level.label ++ " " ++ n.message)

/-- Writes what a daemon has to report, and what its history has come to. -/
def settle (o : Daemon.Options) (before : Folder) (d : Daemon) : IO (Folder × Daemon) := do
  tell (d.notices.toList.filter (Daemon.Notice.shown o.level))
  let after := d.history.folder.getD {}
  save o.output before after
  return (after, { d with notices := #[] })

/-- Has a daemon work until its time is up. -/
partial def work (o : Daemon.Options) (started last : Int) (before : Folder) (d : Daemon) :
    IO Unit := do
  let d := d.round
  IO.sleep (UInt32.ofNat (o.pause / 1000))
  let t ← now
  let (before, d) ← settle o before (d.rest (t - last).toNat)
  match o.duration with
  | some seconds =>
    if started + 1000000 * seconds ≤ t then
      let _ ← settle o before (d.note .elapsed).stop
    else work o started t before d
  | none => work o started t before d

/-- Runs the daemon. -/
def serve (o : Daemon.Options) : IO UInt32 := do
  let mut disk : Disk := {}
  if let some path := o.settingsFile then disk ← load disk path
  disk ← load disk o.output
  let t ← now
  match Daemon.prepare o disk { now := t, today := t } with
  | .error r =>
    tell r.notices
    return UInt32.ofNat r.exitCode
  | .ok s =>
    IO.FS.createDirAll ((← IO.currentDir) / o.output)
    let (before, d) ← settle o (disk.folderAt s.place) s.daemon
    work o t t before d
    return 0

/-- Writes what a program leaves behind. -/
def leave (e : Ending) : IO UInt32 := do
  IO.print e.out
  IO.eprint e.err
  return UInt32.ofNat e.exitCode

/-- Runs the inspector. -/
def inspect (args : List String) : IO UInt32 := do
  let disk ←
    match Inspector.spec.parse args with
    | .run given => load {} (Inspector.Options.ofGiven given).path
    | _ => pure {}
  leave (Inspector.run args disk)

end Program

end BlockLedger

open BlockLedger in
/-- Runs the program that the arguments ask for. -/
def main (args : List String) : IO UInt32 :=
  match args with
  | "dump" :: rest => Program.inspect rest
  | _ =>
    match Daemon.spec.parse args with
    | .run given => Program.serve (.ofGiven given)
    | _ =>
      let r := Daemon.run args {} {} none
      Program.leave ⟨r.exitCode, r.out, r.err⟩
