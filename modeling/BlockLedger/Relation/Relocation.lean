import BlockLedger.Relation.Identity

/-
# Relocations

When a relation gets new storage, its locator changes, and with it the keys its I/O is counted
under.  A relocation tells which storage took the place of which; together with the identity of
the relation, as far as it is known, it is kept as an association.
-/

namespace BlockLedger

/-- The storage of a fork has moved. -/
structure Relocation where
  source : Locator
  target : Locator
  fork : Fork
  /-- It happened while a log was replayed. -/
  redo : Bool
  deriving DecidableEq, Inhabited, Repr

/-- A relocation, with the identity of the relation if that is known. -/
structure Association extends Relocation where
  identity : Option Identity := none
  deriving DecidableEq, Inhabited, Repr

end BlockLedger
