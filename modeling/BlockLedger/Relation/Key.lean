/-
# Keys of relation forks

A relation is stored in up to four files, its forks.  Where the files lie is told by the
tablespace, the database and a number of the storage itself; together with the fork they form
the key under which block I/O is counted.  One reserved number per database stands for all of
its temporary relations at once.
-/

namespace BlockLedger

/-- The number of an object of the database system: a tablespace, a database, a relation. -/
abbrev Oid := UInt32

/-- The number of a block within a fork. -/
abbrev BlockNumber := UInt32

/-- The files a relation is stored in. -/
inductive Fork where
  /-- The rows or index pages themselves. -/
  | main
  /-- The free space map. -/
  | freeSpace
  /-- The visibility map. -/
  | visibility
  /-- The initial contents of an unlogged relation. -/
  | init
  deriving DecidableEq, Hashable, Inhabited, Repr

namespace Fork

/-- All forks, in the order of their codes. -/
def all : List Fork := [main, freeSpace, visibility, init]

/-- The position of a fork in `Fork.all`. -/
def code : Fork → Nat
  | main => 0
  | freeSpace => 1
  | visibility => 2
  | init => 3

/-- The fork with a given code. -/
def ofCode? (n : Nat) : Option Fork := all[n]?

/-- The short name of a fork in keys and messages. -/
def name : Fork → String
  | main => "main"
  | freeSpace => "fsm"
  | visibility => "vm"
  | init => "init"

theorem ofCode?_code (f : Fork) : ofCode? f.code = some f := by
  cases f <;> rfl

theorem mem_all (f : Fork) : f ∈ all := by
  cases f <;> simp [all]

end Fork

/-- Where the files of a relation lie. -/
structure Locator where
  /-- The tablespace. -/
  tablespace : Oid
  /-- The database, 0 for relations shared by all of them. -/
  database : Oid
  /-- The number of the storage, which changes when the relation is relocated. -/
  number : Oid
  deriving DecidableEq, Hashable, Inhabited, Repr

namespace Locator

/-- The three numbers, separated by slashes. -/
def text (l : Locator) : String :=
  toString l.tablespace ++ "/" ++ toString l.database ++ "/" ++ toString l.number

end Locator

/-- One fork of one relation: the unit that I/O is counted for. -/
structure Key where
  locator : Locator
  fork : Fork
  deriving DecidableEq, Hashable, Inhabited, Repr

namespace Key

/-- The number that no relation has and that stands for all temporary relations. -/
def temporaryNumber : Oid := 4294967295

/-- The key that all temporary relations of a database share when they are counted together. -/
def temporaries (database : Oid) : Key :=
  ⟨⟨0, database, temporaryNumber⟩, .main⟩

/-- Whether a key stands for the temporary relations of its database. -/
def isTemporaries (k : Key) : Bool :=
  k.locator.tablespace == 0 && k.locator.number == temporaryNumber && k.fork == .main

/-- The same relation's key for another fork. -/
def withFork (k : Key) (f : Fork) : Key := { k with fork := f }

/-- The locator, followed by the name of the fork. -/
def text (k : Key) : String := k.locator.text ++ "_" ++ k.fork.name

/-- The numbers that keys are ordered by, the most significant first. -/
def ranks (k : Key) : List Nat :=
  [k.locator.tablespace.toNat, k.locator.database.toNat, k.locator.number.toNat, k.fork.code]

/-- Keys are ordered by tablespace, database, number and fork. -/
def le (a b : Key) : Bool := !b.ranks.lex a.ranks

theorem isTemporaries_temporaries (d : Oid) : (temporaries d).isTemporaries = true := by
  simp [isTemporaries, temporaries]

theorem isTemporaries_iff (k : Key) :
    k.isTemporaries = true ↔ k = temporaries k.locator.database := by
  obtain ⟨⟨s, d, n⟩, f⟩ := k
  simp [isTemporaries, temporaries, and_assoc]

@[simp] theorem withFork_locator (k : Key) (f : Fork) : (k.withFork f).locator = k.locator := rfl

@[simp] theorem withFork_fork (k : Key) (f : Fork) : (k.withFork f).fork = f := rfl

end Key

end BlockLedger
