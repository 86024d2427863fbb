import BlockLedger.Catalog
import BlockLedger.Identify.Spread
import BlockLedger.Ledger

/-
# Identities for a new database

A new database is a copy of a template, and its relations are in use before any catalog has looked
at them.  Their identities are taken from the pages of its class table: from each page the tuples
whose entries need an identity are noted, at most 256 of them, and applied in their order once the
page has been let go.
-/

namespace BlockLedger

/-- The columns of the class table that matter here. -/
structure ClassTuple where
  oid : Oid
  name : String
  /-- The schema, by its number. -/
  schema : Oid
  /-- The letter of the relation's kind. -/
  letter : Char
  /-- The tablespace, 0 for the default one of the database. -/
  tablespace : Oid
  /-- The number of the storage, 0 for none. -/
  number : Oid
  /-- The relation is shared by all databases. -/
  shared : Bool
  deriving DecidableEq, Inhabited, Repr

namespace ClassTuple

/-- Whether a tuple describes storage of its database that may have an entry. -/
def trackable (t : ClassTuple) : Bool :=
  !t.shared && t.number != 0
    && match RelKind.ofLetter? t.letter with
       | some kind => kind.hasStorage
       | none => false

/-- The key of the main fork of the relation that a tuple describes. -/
def key (t : ClassTuple) (database tablespace : Oid) : Key :=
  ⟨⟨if t.tablespace = 0 then tablespace else t.tablespace, database, t.number⟩, .main⟩

end ClassTuple

/-- The class tables of databases, page by page.  A database is given together with its default
tablespace. -/
structure ClassPages where
  pageCount : Oid → Oid → Except CatalogError Nat
  page : Oid → Oid → Nat → Except CatalogError (List ClassTuple)

namespace ClassPages

/-- Class tables given as the list of their pages; beyond the last page there are `missing` more
that are announced and cannot be read. -/
def ofPages (pages : List (Oid × List ClassTuple)) (missing : Nat) : ClassPages where
  pageCount database _ := .ok ((pages.filter fun p => p.1 == database).length + missing)
  page database _ n :=
    match (pages.filter fun p => p.1 == database)[n]? with
    | some (_, tuples) => .ok tuples
    | none => .error (.query ("page " ++ toString n ++ " out of range"))

end ClassPages

namespace Bulk

/-- The greatest number of candidates that are taken from a page. -/
def maxCandidates : Nat := 256

/-- The tuples of a page whose main fork has an entry without an identity, with their keys, at most
`room` of them. -/
def candidates (s : Store) (database tablespace : Oid) :
    Nat → List ClassTuple → List (Key × ClassTuple)
  | 0, _ => []
  | _, [] => []
  | room + 1, t :: rest =>
    let key := t.key database tablespace
    if t.trackable && s.unresolved key then
      (key, t) :: candidates s database tablespace room rest
    else candidates s database tablespace (room + 1) rest

variable {C : Type} [Catalog C]

/-- The name of a schema, empty if there is none or if the catalog fails. -/
def schemaName (schema : Oid) (l : Ledger) (catalog : C) : String × Ledger × C :=
  match Catalog.schema catalog schema with
  | (.ok name, catalog) => (name.getD "", l, catalog)
  | (.error e, catalog) => ("", l.report (.schemaFailed schema e), catalog)

/-- The identity that a tuple describes, given the name of its schema. -/
def identityOf (t : ClassTuple) (schema : String) : Identity :=
  { oid := t.oid
    mainOid := 0
    kind := RelKind.ofLetter? t.letter
    name := t.name
    schema
    valid := true }

/-- Applies candidates in their order, and counts those whose entries changed. -/
def applyAll : List (Key × ClassTuple) → Ledger → C → Nat × Ledger × C
  | [], l, catalog => (0, l, catalog)
  | (key, t) :: rest, l, catalog =>
    match schemaName t.schema l catalog with
    | (schema, l, catalog) =>
      match l.store.resolve key (identityOf t schema) with
      | (applied, store) =>
        match applyAll rest { l with store } catalog with
        | (n, l, catalog) => (if applied then n + 1 else n, l, catalog)

/-- Goes through a number of pages from page `page` on. -/
def scan (pages : ClassPages) (database tablespace : Oid) :
    Nat → Nat → Ledger → C → Except CatalogError Nat × Ledger × C
  | 0, _, l, catalog => (.ok 0, l, catalog)
  | count + 1, page, l, catalog =>
    match pages.page database tablespace page with
    | .error e => (.error e, l, catalog)
    | .ok tuples =>
      match applyAll (candidates l.store database tablespace maxCandidates tuples) l catalog with
      | (n, l, catalog) =>
        match scan pages database tablespace count (page + 1) l catalog with
        | (.ok m, l, catalog) => (.ok (n + m), l, catalog)
        | (.error e, l, catalog) => (.error e, l, catalog)

/-- Gives identities to the entries of a new database, and counts the main forks among them. -/
def resolveDatabase (pages : ClassPages) (database tablespace : Oid) (l : Ledger) (catalog : C) :
    Except CatalogError Nat × Ledger × C :=
  match pages.pageCount database tablespace with
  | .error e => (.error e, l, catalog)
  | .ok 0 => (.ok 0, l, catalog)
  | .ok count =>
    match scan pages database tablespace count 0 l catalog with
    | (.ok n, l, catalog) => (.ok n, l.report (.databaseScanned database count n), catalog)
    | (.error e, l, catalog) => (.error e, l, catalog)

end Bulk

end BlockLedger
