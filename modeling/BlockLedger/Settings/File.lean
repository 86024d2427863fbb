import BlockLedger.Json.Printer
import BlockLedger.Json.Skip
import BlockLedger.Number.Natural
import BlockLedger.Segment.Fault
import BlockLedger.Settings

/-
# Settings files

A settings file is a JSON object with a field for every setting.  Fields may be left out, and then
the setting keeps its default; fields that are not known are passed over, but none may be given
twice.  Instead of an object the file may hold an array with the settings in their order.
-/

namespace BlockLedger

namespace Settings

/-- A setting, as far as files are concerned. -/
inductive Field where
  | database
  | interval
  | tempTracking
  | retention
  | concurrency
  deriving DecidableEq, Inhabited, Repr

namespace Field

/-- All settings, in the order in which they are written. -/
def all : List Field := [database, interval, tempTracking, retention, concurrency]

/-- The name of a setting in files. -/
def name : Field → String
  | database => "database"
  | interval => "collection_interval_secs"
  | tempTracking => "track_temp_tables"
  | retention => "retention_hours"
  | concurrency => "io_max_concurrency"

/-- The setting with a name. -/
def ofName? (name : String) : Option Field := all.find? fun f => f.name == name

end Field

/-! ## Writing -/

/-- The value of a setting in a file. -/
def valueOf (s : Settings) : Field → Json.Value
  | .database => .text s.database
  | .interval => .natural s.interval
  | .tempTracking => .text s.tempTracking.word
  | .retention => .natural s.retention
  | .concurrency => .natural s.concurrency

/-- Settings as a file. -/
def toJson (s : Settings) : String :=
  Json.render .compact 0 (.object (Field.all.map fun f => (f.name, s.valueOf f)))

/-! ## Reading -/

open Json (Reader)

/-- The mode that a word in a file stands for. -/
def trackingOfWord (word : String) : Reader TempTracking :=
  match TempTracking.ofWord? word with
  | some m => pure m
  | none => throw .unsuitable

/-- Reads a mode: its word, or an object whose only field has that name and no value. -/
def tracking : Reader TempTracking := do
  let b ← Json.peekByte
  if b == Json.ascii '"' then trackingOfWord (← Json.string)
  else if b == Json.ascii '\x7b' then
    Json.skip
    let mode ← trackingOfWord (← Json.string)
    Json.colon
    Json.null
    if (← Json.peekByte) == Json.ascii '\x7d' then
      Json.skip
      return mode
    else throw .malformed
  else throw .malformed

/-- The greatest number of 32 bits. -/
def max32 : Nat := 2 ^ 32 - 1

/-- The greatest number of 64 bits. -/
def max64 : Nat := 2 ^ 64 - 1

/-- Reads the value of a setting. -/
def readField (s : Settings) : Field → Reader Settings
  | .database => do return { s with database := ← Json.string }
  | .interval => do return { s with interval := ← Json.natural max32 }
  | .tempTracking => do return { s with tempTracking := ← tracking }
  | .retention => do return { s with retention := ← Json.natural max32 }
  | .concurrency => do return { s with concurrency := ← Json.natural max64 }

/-- Whether there is another element, of which the first byte is next.  `first` tells that there was
none before. -/
def another (closer : UInt8) (first : Bool) : Reader Bool := do
  let b ← Json.peekByte
  if b == closer then return false
  else if first then return true
  else if b == Json.ascii ',' then
    Json.skip
    if (← Json.peekByte) == closer then throw .malformed else return true
  else throw .malformed

/-- Reads the fields of an object, of which the opening brace has been taken.  Every turn takes at
least one byte. -/
def readObject : Nat → Bool → List Field → Settings → Reader Settings
  | 0, _, _, _ => throw .incomplete
  | fuel + 1, first, seen, s => do
    if ← another (Json.ascii '\x7d') first then
      if (← Json.peekByte) != Json.ascii '"' then throw .malformed
      match Field.ofName? (← Json.string) with
      | some f =>
        if seen.contains f then throw .unsuitable
        Json.colon
        readObject fuel false (f :: seen) (← readField s f)
      | none =>
        Json.colon
        Json.skipValue
        readObject fuel false seen s
    else
      Json.skip
      return s

/-- Reads the elements of an array, of which the opening bracket has been taken, as settings in
their order. -/
def readArray : List Field → Bool → Settings → Reader Settings
  | [], _, s => do
    if (← Json.peekByte) == Json.ascii ']' then
      Json.skip
      return s
    else throw .malformed
  | f :: rest, first, s => do
    if ← another (Json.ascii ']') first then readArray rest false (← readField s f)
    else
      Json.skip
      return s

/-- Reads settings. -/
def reader : Reader Settings := fun bytes =>
  (do
    let b ← Json.peekByte
    let s ←
      if b == Json.ascii '[' then
        Json.skip
        readArray Field.all true {}
      else if b == Json.ascii '\x7b' then
        Json.skip
        readObject (bytes.length + 1) true [] {}
      else Json.wrongKind
    match ← Json.peek with
    | some _ => throw .malformed
    | none => return s : Reader Settings) bytes

/-- Why settings could not be loaded. -/
inductive LoadError where
  | file (fault : FileFault)
  | flaw (flaw : Json.Flaw)
  | invalid (setting : InvalidSetting)
  deriving DecidableEq, Repr

namespace LoadError

/-- The failure in words. -/
def message : LoadError → String
  | file f => "failed to read settings: " ++ f.message
  | flaw f => "failed to parse settings: " ++ f.message
  | invalid s => s.message

end LoadError

/-- Accepts settings, or tells why not. -/
def check (s : Settings) : Except LoadError Settings :=
  match s.validate with
  | .ok () => .ok s
  | .error e => .error (.invalid e)

/-- The settings in the bytes of a file. -/
def load (file : Except FileFault (List UInt8)) : Except LoadError Settings :=
  match file with
  | .error e => .error (.file e)
  | .ok bytes =>
    match reader bytes with
    | .error e => .error (.flaw e)
    | .ok (s, _) => s.check

end Settings

end BlockLedger
