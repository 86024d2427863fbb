import BlockLedger.Catalog
import Std.Data.HashMap

/-
# Listed catalogs

A catalog given by lists of relations and schemas.  It counts how often it was asked for a
relation, and it can be switched to fail.
-/

namespace BlockLedger

/-- A relation as a listed catalog holds it. -/
structure CatalogRow where
  oid : Oid
  mainOid : Oid
  kind : RelKind
  name : String
  /-- The schema, by its number. -/
  schema : Oid
  deriving DecidableEq, Inhabited, Repr

/-- A catalog given by lists. -/
structure ListedCatalog where
  /-- The relations, by tablespace and number. -/
  relations : Std.HashMap (Oid × Oid) CatalogRow := {}
  schemas : Std.HashMap Oid String := {}
  /-- How often a relation was asked for. -/
  lookups : Nat := 0
  /-- Whether every question fails. -/
  failing : Bool := false

namespace ListedCatalog

instance : Inhabited ListedCatalog := ⟨{}⟩

/-- A catalog without relations and with the two schemas that every database has. -/
def empty : ListedCatalog :=
  { schemas := (({} : Std.HashMap Oid String).insert 11 "pg_catalog").insert 2200 "public" }

/-- Adds a schema, or renames it. -/
def addSchema (c : ListedCatalog) (oid : Oid) (name : String) : ListedCatalog :=
  { c with schemas := c.schemas.insert oid name }

/-- Adds a relation, in the place of one that was listed there before. -/
def addRelation (c : ListedCatalog) (tablespace number : Oid) (row : CatalogRow) :
    ListedCatalog :=
  { c with relations := c.relations.insert (tablespace, number) row }

/-- The failure of a catalog that is switched to fail. -/
def unavailable : CatalogError := .query "catalog unavailable"

/-- The identity that a row stands for. -/
def identityOf (c : ListedCatalog) (row : CatalogRow) : Identity :=
  { oid := row.oid
    mainOid := row.mainOid
    kind := some row.kind
    name := row.name
    schema := c.schemas.getD row.schema ""
    valid := true }

instance : Catalog ListedCatalog where
  relation c tablespace number :=
    (if c.failing then .error unavailable
      else .ok (c.relations[(tablespace, number)]?.map c.identityOf),
      { c with lookups := c.lookups + 1 })
  schema c oid := (if c.failing then .error unavailable else .ok c.schemas[oid]?, c)

end ListedCatalog

end BlockLedger
