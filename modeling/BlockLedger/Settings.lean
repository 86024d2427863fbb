/-
# Settings

What an administrator can choose.  Part of it is fixed when the program starts; the tunables can
be changed while it runs, and are then forced into their range instead of being refused.
-/

namespace BlockLedger

/-- How I/O on temporary relations is counted. -/
inductive TempTracking where
  /-- Not at all. -/
  | off
  /-- Under a key of its own for every fork. -/
  | individual
  /-- Under one key for each database. -/
  | aggregate
  deriving DecidableEq, Inhabited, Repr

namespace TempTracking

/-- The word that stands for a mode in a settings file. -/
def word : TempTracking → String
  | off => "off"
  | individual => "individual"
  | aggregate => "aggregate"

/-- The name of a mode in messages. -/
def label : TempTracking → String
  | off => "Off"
  | individual => "Individual"
  | aggregate => "Aggregate"

/-- The mode that a word stands for. -/
def ofWord? (w : String) : Option TempTracking :=
  [off, individual, aggregate].find? fun m => m.word == w

theorem ofWord?_word (m : TempTracking) : ofWord? m.word = some m := by
  cases m <;> decide

end TempTracking

/-- What can be wrong with a setting. -/
inductive InvalidSetting where
  | interval (seconds : Nat)
  | noDatabase
  | noConcurrency
  | tempTracking (word : String)
  deriving DecidableEq, Repr

/-- The settings of the program. -/
structure Settings where
  /-- The database that the collector connects to. -/
  database : String := "postgres"
  /-- The time between two collections, in seconds.  Tunable. -/
  interval : Nat := 60
  /-- How temporary relations are counted.  Tunable. -/
  tempTracking : TempTracking := .aggregate
  /-- After how many hours history is deleted, 0 for never.  Tunable. -/
  retention : Nat := 0
  /-- How many asynchronous reads a backend keeps apart. -/
  concurrency : Nat := 64
  deriving DecidableEq, Inhabited, Repr

/-- The settings that can be changed while the program runs. -/
structure Tunables where
  interval : Nat
  tempTracking : TempTracking
  retention : Nat
  deriving DecidableEq, Inhabited, Repr

namespace Settings

/-- The shortest time between two collections, in seconds. -/
def minInterval : Nat := 1

/-- The longest time between two collections, in seconds. -/
def maxInterval : Nat := 3600

/-- Accepts settings, or names the first thing that is wrong with them. -/
def validate (s : Settings) : Except InvalidSetting Unit :=
  if s.interval < minInterval ∨ maxInterval < s.interval then .error (.interval s.interval)
  else if s.database.isEmpty then .error .noDatabase
  else if s.concurrency = 0 then .error .noConcurrency
  else .ok ()

end Settings

namespace InvalidSetting

/-- What is wrong, in words. -/
def message : InvalidSetting → String
  | interval n =>
    "invalid settings: collection_interval_secs must be between " ++ toString Settings.minInterval
      ++ " and " ++ toString Settings.maxInterval ++ ", got " ++ toString n
  | noDatabase => "invalid settings: database must not be empty"
  | noConcurrency => "invalid settings: io_max_concurrency must be at least 1"
  | tempTracking w =>
    "invalid settings: track_temp_tables must be one of off, individual, aggregate; got " ++ w

end InvalidSetting

namespace TempTracking

/-- The mode that a word stands for, or what is wrong with the word. -/
def parse (w : String) : Except InvalidSetting TempTracking :=
  match ofWord? w with
  | some m => .ok m
  | none => .error (.tempTracking w)

end TempTracking

namespace Tunables

/-- The tunable part of settings, as it stands. -/
def ofSettings (s : Settings) : Tunables := ⟨s.interval, s.tempTracking, s.retention⟩

/-- The number of seconds within the range that is nearest to `n`. -/
def clamp (n : Nat) : Nat := max Settings.minInterval (min n Settings.maxInterval)

/-- The tunable part of settings, with the interval forced into its range. -/
def reload (s : Settings) : Tunables := ⟨clamp s.interval, s.tempTracking, s.retention⟩

theorem clamp_of_valid {s : Settings} (h : s.validate = .ok ()) :
    clamp s.interval = s.interval := by
  unfold Settings.validate at h
  split at h
  · cases h
  · rename_i hr
    unfold clamp
    omega

end Tunables

end BlockLedger
