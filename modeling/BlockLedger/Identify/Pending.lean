import BlockLedger.Catalog
import BlockLedger.Identify.Spread
import BlockLedger.Ledger

/-
# Pending keys

Entries are created where the catalog may not be asked, so every backend keeps a list of the keys
whose entries still need an identity, and goes through it when it has finished a piece of work.  A
key leaves the list once its entry has an identity; it stays if the catalog could not be asked,
failed, or did not know the relation.
-/

namespace BlockLedger

/-- What going through a list of pending keys came to. -/
structure Resolution where
  /-- How many entries took on an identity that was asked for. -/
  resolved : Nat := 0
  /-- How many keys are still pending. -/
  retained : Nat := 0
  deriving DecidableEq, Inhabited, Repr

/-- What became of a pending key. -/
inductive Fate where
  /-- It stays on the list. -/
  | kept
  /-- It leaves the list, and its entry took on the identity that was found. -/
  | resolved
  /-- It leaves the list without that. -/
  | dropped
  deriving DecidableEq, Inhabited, Repr

namespace Pending

/-- Whether a key is to be put on the list of a session. -/
def wanted (session : Session) (key : Key) : Bool :=
  !key.isTemporaries && session.owns key.locator.database

/-- Puts a key at the end of the list, if it is wanted there. -/
def add (session : Session) (keys : List Key) (key : Key) : List Key :=
  if wanted session key then keys ++ [key] else keys

variable {C : Type} [Catalog C]

/-- Asks the catalog for a key whose entry needs an identity, and applies what it finds. -/
def ask (session : Session) (key : Key) (l : Ledger) (catalog : C) : Fate × Ledger × C :=
  match Catalog.find catalog session key with
  | (.found identity, catalog) =>
    match l.store.resolve key identity with
    | (applied, store) => (if applied then .resolved else .dropped, { l with store }, catalog)
  | (.refused reason, catalog) => (.kept, l.report (.lookupRefused key reason), catalog)
  | (.missing, catalog) => (.kept, l, catalog)
  | (.failed e, catalog) => (.kept, l.report (.lookupFailed key e), catalog)

/-- Deals with one pending key. -/
def settle (session : Session) (key : Key) (l : Ledger) (catalog : C) : Fate × Ledger × C :=
  if session.owns key.locator.database = false then (.kept, l, catalog)
  else if l.store.unresolved key = false then (.dropped, l, catalog)
  else ask session key l catalog

/-- Deals with pending keys one after the other: the keys that stay, in their order, and how many
were resolved. -/
def settleAll (session : Session) :
    List Key → Ledger → C → (List Key × Nat) × Ledger × C
  | [], l, catalog => (([], 0), l, catalog)
  | key :: rest, l, catalog =>
    match settle session key l catalog with
    | (fate, l, catalog) =>
      match settleAll session rest l catalog with
      | ((kept, resolved), l, catalog) =>
        ((if fate = .kept then key :: kept else kept,
          if fate = .resolved then resolved + 1 else resolved), l, catalog)

end Pending

end BlockLedger
