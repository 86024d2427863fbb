import BlockLedger.Relation.Identity

/-
# Catalogs and sessions

A catalog tells which relation stands behind a locator.  It may be asked only at certain moments
of a session: the session must be connected to a database, be in a transaction, and not be in a
critical section.  A catalog may fail, and it may answer the same question differently at another
time, so asking is an action on a state of the catalog's own.
-/

namespace BlockLedger

/-- Why a catalog gave no answer. -/
inductive CatalogError where
  /-- A variable that the connection needs is not set. -/
  | notSet (name : String)
  | connection (text : String)
  | query (text : String)
  deriving DecidableEq, Inhabited, Repr

namespace CatalogError

/-- The failure in words. -/
def message : CatalogError → String
  | notSet name => "catalog: " ++ name ++ " not set"
  | connection text => "catalog: " ++ text
  | query text => "catalog query error: " ++ text

end CatalogError

/-- What a backend or the collector is doing, as far as catalogs are concerned. -/
structure Session where
  /-- The database it is connected to, 0 for none yet. -/
  database : Oid := 0
  /-- The tablespace of relations that name none. -/
  tablespace : Oid := 0
  inTransaction : Bool := false
  /-- How many critical sections it is in, one inside the other. -/
  critical : Nat := 0
  deriving DecidableEq, Inhabited, Repr

namespace Session

/-- Whether relations of a database are this session's business: its own, and shared ones. -/
def owns (s : Session) (database : Oid) : Bool := database == s.database || database == 0

/-- Starts a transaction. -/
def enter (s : Session) : Session := { s with inTransaction := true }

/-- Ends the transaction. -/
def leave (s : Session) : Session := { s with inTransaction := false }

/-- Enters a critical section. -/
def enterCritical (s : Session) : Session := { s with critical := s.critical + 1 }

/-- Leaves the innermost critical section. -/
def leaveCritical (s : Session) : Session := { s with critical := s.critical - 1 }

/-- Whether the catalog may be asked now. -/
def mayAsk (s : Session) : Bool := s.database != 0 && s.inTransaction && s.critical == 0

end Session

/-- Why a catalog was not asked.  The question is put again later. -/
inductive Refusal where
  | invalidNumber
  | noDatabase
  | noTransaction
  | criticalSection
  deriving DecidableEq, Inhabited, Repr

namespace Refusal

/-- All reasons. -/
def all : List Refusal := [invalidNumber, noDatabase, noTransaction, criticalSection]

/-- The reason in words. -/
def message : Refusal → String
  | invalidNumber => "invalid relation number"
  | noDatabase => "no database connection"
  | noTransaction => "not in a transaction"
  | criticalSection => "inside a critical section"

end Refusal

/-- Something that can be asked about relations and schemas. -/
class Catalog (C : Type) where
  /-- The identity of the relation stored under a number in a tablespace; tablespace 0 is the
  default one of the database. -/
  relation : C → Oid → Oid → Except CatalogError (Option Identity) × C
  /-- The name of a schema. -/
  schema : C → Oid → Except CatalogError (Option String) × C

/-- What came of asking for an identity. -/
inductive Finding where
  | found (identity : Identity)
  | missing
  | refused (reason : Refusal)
  | failed (error : CatalogError)
  deriving DecidableEq, Repr

namespace Catalog

variable {C : Type} [Catalog C]

/-- Asks for a relation in its own tablespace, and if there is none, in the default one. -/
def search (catalog : C) (tablespace number : Oid) :
    Except CatalogError (Option Identity) × C :=
  match relation catalog tablespace number with
  | (.ok none, catalog) =>
    if tablespace = 0 then (.ok none, catalog) else relation catalog 0 number
  | answer => answer

/-- Why a session may not ask for a number now, if so. -/
def refusal (session : Session) (number : Oid) : Option Refusal :=
  if number = 0 then some .invalidNumber
  else if session.database = 0 then some .noDatabase
  else if session.inTransaction = false then some .noTransaction
  else if 0 < session.critical then some .criticalSection
  else none

/-- Finds the identity of a key.  Temporary relations that are counted together need no
catalog. -/
def find (catalog : C) (session : Session) (key : Key) : Finding × C :=
  if key.isTemporaries then (.found .temporaries, catalog)
  else
    match refusal session key.locator.number with
    | some reason => (.refused reason, catalog)
    | none =>
      match search catalog key.locator.tablespace key.locator.number with
      | (.ok (some identity), catalog) => (.found identity, catalog)
      | (.ok none, catalog) => (.missing, catalog)
      | (.error e, catalog) => (.failed e, catalog)

theorem mayAsk_of_refusal_eq_none {session : Session} {number : Oid}
    (h : refusal session number = none) : session.mayAsk = true := by
  unfold refusal at h
  split at h <;> try contradiction
  split at h <;> try contradiction
  split at h <;> try contradiction
  split at h <;> try contradiction
  rename_i hd ht hc
  simp only [Session.mayAsk, Bool.and_eq_true, bne_iff_ne, ne_eq, beq_iff_eq]
  exact ⟨⟨hd, by simpa using ht⟩, by omega⟩

end Catalog

end BlockLedger
