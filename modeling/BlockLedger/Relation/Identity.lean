import BlockLedger.Relation.Key

/-
# Catalog identities

The number in a locator says nothing to a reader.  An identity is what the catalog knows about
the relation behind it: its own number, its kind and its name.
-/

namespace BlockLedger

/-- The kinds of relations that a catalog lists. -/
inductive RelKind where
  | table
  | index
  | sequence
  | toast
  | view
  | materializedView
  | compositeType
  | foreignTable
  | partitionedTable
  | partitionedIndex
  /-- All temporary relations of a database together; no catalog lists it. -/
  | temporaries
  deriving DecidableEq, Inhabited, Repr

namespace RelKind

/-- All kinds, in the order of their codes in segment files. -/
def all : List RelKind :=
  [table, index, sequence, toast, view, materializedView, compositeType, foreignTable,
    partitionedTable, partitionedIndex, temporaries]

/-- The letter that a catalog writes for a kind. -/
def letter : RelKind → Char
  | table => 'r'
  | index => 'i'
  | sequence => 'S'
  | toast => 't'
  | view => 'v'
  | materializedView => 'm'
  | compositeType => 'c'
  | foreignTable => 'f'
  | partitionedTable => 'p'
  | partitionedIndex => 'I'
  | temporaries => 'T'

/-- The kind that a letter stands for. -/
def ofLetter? (c : Char) : Option RelKind := all.find? fun k => k.letter == c

/-- The position of a kind in `RelKind.all`. -/
def code : RelKind → Nat
  | table => 0
  | index => 1
  | sequence => 2
  | toast => 3
  | view => 4
  | materializedView => 5
  | compositeType => 6
  | foreignTable => 7
  | partitionedTable => 8
  | partitionedIndex => 9
  | temporaries => 10

/-- The kind with a given code. -/
def ofCode? (n : Nat) : Option RelKind := all[n]?

/-- The name of a kind. -/
def label : RelKind → String
  | table => "Table"
  | index => "Index"
  | sequence => "Sequence"
  | toast => "Toast"
  | view => "View"
  | materializedView => "MaterializedView"
  | compositeType => "CompositeType"
  | foreignTable => "ForeignTable"
  | partitionedTable => "PartitionedTable"
  | partitionedIndex => "PartitionedIndex"
  | temporaries => "TempAggregate"

/-- Whether relations of a kind have files of their own. -/
def hasStorage : RelKind → Bool
  | table | index | sequence | toast | materializedView => true
  | _ => false

theorem ofLetter?_letter (k : RelKind) : ofLetter? k.letter = some k := by
  cases k <;> decide

theorem ofCode?_code (k : RelKind) : ofCode? k.code = some k := by
  cases k <;> rfl

end RelKind

/-- What is known about the relation behind a key. -/
structure Identity where
  /-- The relation itself. -/
  oid : Oid := 0
  /-- The table that the relation belongs to, for indexes and the like. -/
  mainOid : Oid := 0
  kind : Option RelKind := none
  name : String := ""
  schema : String := ""
  /-- False as long as nothing has been found out. -/
  valid : Bool := false
  deriving DecidableEq, Inhabited, Repr

namespace Identity

/-- Nothing is known. -/
def unknown : Identity := {}

/-- The identity of all temporary relations of a database together. -/
def temporaries : Identity :=
  { kind := some .temporaries, name := "<temporary tables>", schema := "pg_temp", valid := true }

@[simp] theorem unknown_valid : unknown.valid = false := rfl

@[simp] theorem temporaries_valid : temporaries.valid = true := rfl

end Identity

end BlockLedger
