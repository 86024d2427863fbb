import BlockLedger.Catalog.Listed
import BlockLedger.Storage.Request

/-
# The plan of the workload

The relations of the workload: tables that all backends share, and for every backend a scratch
table, which is relocated now and then and alternates between two numbers, and a temporary table.
The catalog of the workload knows all but the temporary ones.
-/

namespace BlockLedger

/-- The size of a workload. -/
structure Plan where
  backends : UInt32 := 4
  tables : UInt32 := 8
  /-- The length of every table in blocks. -/
  tableBlocks : UInt32 := 1024
  deriving DecidableEq, Inhabited, Repr

namespace Plan

/-- The database that everything belongs to. -/
def database : Oid := 16384

/-- The tablespace that everything lies in. -/
def tablespace : Oid := 1663

/-- The schema of the shared tables. -/
def publicSchema : Oid := 2200

/-- The schema of the scratch tables. -/
def scratchSchema : Oid := 16385

/-- The number of the first shared table. -/
def firstTable : Oid := 16400

/-- The number of the first scratch table. -/
def firstScratch : Oid := 30000

/-- The distance between the two numbers of a scratch table. -/
def relocationOffset : Oid := 1000

/-- The number of the first temporary table. -/
def firstTemporary : Oid := 40000

/-- The length of a scratch table in blocks. -/
def scratchBlocks : UInt32 := 64

/-- The greatest length of a temporary table in blocks. -/
def temporaryBlocks : UInt32 := 32

/-- How many blocks a scan reads at most. -/
def scanBlocks : UInt32 := 16

/-- Where a relation lies. -/
def locator (number : Oid) : Locator := ⟨tablespace, database, number⟩

/-- The session of every backend and of the collector. -/
def session : Session := { database, tablespace }

/-- The numbers below a bound. -/
def below (n : UInt32) : List UInt32 := (List.range n.toNat).map UInt32.ofNat

/-- The shared tables. -/
def sharedTables (p : Plan) : List Relation :=
  (below p.tables).map fun i => { locator := locator (firstTable + i) }

/-- A table in the catalog. -/
def row (oid : Oid) (name : String) (schema : Oid) : CatalogRow :=
  { oid, mainOid := 0, kind := .table, name, schema }

/-- Adds a shared table to a catalog. -/
def addTable (c : ListedCatalog) (i : UInt32) : ListedCatalog :=
  c.addRelation 0 (firstTable + i)
    (row (firstTable + i) ("table_" ++ toString i) publicSchema)

/-- Adds the scratch table of a backend to a catalog, under both of its numbers. -/
def addScratch (c : ListedCatalog) (b : UInt32) : ListedCatalog :=
  let oid := firstScratch + b
  let r := row oid ("backend_" ++ toString b) scratchSchema
  (c.addRelation 0 oid r).addRelation 0 (oid + relocationOffset) r

/-- The catalog of the workload. -/
def catalog (p : Plan) : ListedCatalog :=
  let c := ListedCatalog.empty.addSchema scratchSchema "scratch"
  (below p.backends).foldl addScratch ((below p.tables).foldl addTable c)

end Plan

end BlockLedger
