import BlockLedger.Relation.Key

/-
# Storage requests

What a backend can ask of the storage of a relation, what it gets back, and how a request can
fail.  Pages are moved about whole and nobody looks into them, so a request is made for pages of
any type.
-/

namespace BlockLedger

/-- The size of a page in bytes. -/
def blockSize : Nat := 8192

/-- A relation that a backend has open. -/
structure Relation where
  locator : Locator
  /-- It belongs to this backend alone and vanishes with it. -/
  temporary : Bool := false
  deriving DecidableEq, Inhabited, Repr

/-- An asynchronous read, as it is known from its submission to its completion. -/
structure Handle where
  id : Nat
  /-- How many blocks are to be read. -/
  blocks : BlockNumber
  deriving DecidableEq, Inhabited, Repr

/-- How an asynchronous read ended. -/
inductive Completion where
  | ok
  /-- Fewer blocks were read than were asked for. -/
  | partly (blocks : BlockNumber)
  | failed
  deriving DecidableEq, Inhabited, Repr

namespace Completion

/-- Whether all blocks were read. -/
def isOk : Completion → Bool
  | ok => true
  | _ => false

end Completion

/-- What can be asked of the storage of a fork. -/
inductive Operation (P : Type) where
  /-- Makes the relation known; the fork does not matter. -/
  | attach
  /-- Creates the fork.  `old` is the storage that the relation had before, with number 0 if it
  had none. -/
  | create (old : Locator) (redo : Bool)
  | read (block : BlockNumber) (count : Nat)
  /-- Starts an asynchronous read. -/
  | submit (handle : Handle) (block : BlockNumber)
  | write (block : BlockNumber) (pages : List P)
  /-- Puts a page at a block, lengthening the fork up to there. -/
  | append (block : BlockNumber) (page : P)
  /-- Lengthens the fork by blank pages, up to `count` blocks after `block`. -/
  | lengthen (block count : BlockNumber)
  | truncate (length : BlockNumber)
  | sync
  deriving DecidableEq, Repr

namespace Operation

/-- The name of an operation in messages. -/
def name {P : Type} : Operation P → String
  | attach => "open"
  | create .. => "create"
  | read .. => "readv"
  | submit .. => "start_readv"
  | write .. => "writev"
  | append .. => "extend"
  | lengthen .. => "zero_extend"
  | truncate .. => "truncate"
  | sync => "immedsync"

end Operation

/-- An operation on a fork of a relation. -/
structure Request (P : Type) where
  relation : Relation
  fork : Fork
  operation : Operation P
  deriving DecidableEq, Repr

namespace Request

/-- The key of the fork that a request is for. -/
def key {P : Type} (q : Request P) : Key := ⟨q.relation.locator, q.fork⟩

end Request

/-- Why a request failed. -/
inductive CallError where
  | missing (key : Key)
  /-- The last block of the request lies beyond the end of the fork. -/
  | beyondEnd (key : Key) (block length : BlockNumber)
  /-- Nobody carries out such requests. -/
  | unhandled (operation : String)
  deriving DecidableEq, Inhabited, Repr

namespace CallError

/-- A fork in words. -/
def forkText (key : Key) : String := "relation " ++ key.locator.text ++ " fork " ++ key.fork.name

/-- The failure in words. -/
def message : CallError → String
  | missing key => forkText key ++ " does not exist"
  | beyondEnd key block length =>
    "block " ++ toString block ++ " of " ++ forkText key ++ " is beyond end of file ("
      ++ toString length ++ " blocks)"
  | unhandled operation => "no storage manager handled " ++ operation

end CallError

end BlockLedger
