import BlockLedger.Storage.Request
import Std.Data.HashMap

/-
# The block device

The device holds the pages of every fork that was ever created.  A fork grows when a page is put
beyond its end, the blocks in between being blank, and shrinks when it is truncated; reads and
writes stay within it.  A request that fails changes nothing, and no request touches another fork.
-/

namespace BlockLedger

/-- The pages of all forks. -/
structure Device (P : Type) where
  forks : Std.HashMap Key (Array P) := {}

namespace Device

variable {P : Type}

instance : Inhabited (Device P) := ⟨{}⟩

/-- The pages of a fork, if it was created. -/
def fork? (d : Device P) (key : Key) : Option (Array P) := d.forks[key]?

/-- The length of a fork in blocks, if it was created. -/
def length? (d : Device P) (key : Key) : Option Nat := (d.fork? key).map Array.size

/-- Replaces the pages of a fork. -/
def put (d : Device P) (key : Key) (pages : Array P) : Device P :=
  ⟨d.forks.insert key pages⟩

/-- Whether `count` blocks from `block` on lie within a fork of `length` blocks; the error names
the last of them. -/
def checkRange (key : Key) (length : Nat) (block : BlockNumber) (count : Nat) :
    Except CallError Unit :=
  if length < block.toNat + count then
    .error (.beyondEnd key (block + UInt32.ofNat (count - 1)) (UInt32.ofNat length))
  else .ok ()

/-- Lengthens a fork to at least `length` blocks. -/
def lengthenTo (blank : P) (pages : Array P) (length : Nat) : Array P :=
  pages ++ Array.replicate (length - pages.size) blank

/-- Puts pages one after the other into a fork, from a position on. -/
def overwrite (pages : Array P) : Nat → List P → Array P
  | _, [] => pages
  | i, p :: rest => overwrite (pages.setIfInBounds i p) (i + 1) rest

/-- Carries out an operation on the pages of a fork that exists: the pages that were read, and the
pages of the fork afterwards. -/
def operate (blank : P) (key : Key) (pages : Array P) :
    Operation P → Except CallError (List P × Array P)
  | .attach | .create .. | .sync => .ok ([], pages)
  | .read block count => do
    checkRange key pages.size block count
    return ((pages.extract block.toNat (block.toNat + count)).toList, pages)
  | .submit handle block => do
    checkRange key pages.size block handle.blocks.toNat
    return ([], pages)
  | .write block data => do
    checkRange key pages.size block data.length
    return ([], overwrite pages block.toNat data)
  | .append block page =>
    .ok ([], (lengthenTo blank pages (block.toNat + 1)).setIfInBounds block.toNat page)
  | .lengthen block count => .ok ([], lengthenTo blank pages (block.toNat + count.toNat))
  | .truncate length => .ok ([], pages.take length.toNat)

/-- Carries out a request: the pages that were read, and the device afterwards.  Making a relation
known asks nothing of the device, and a fork is created only once. -/
def perform (blank : P) (d : Device P) (q : Request P) : Except CallError (List P × Device P) :=
  match q.operation with
  | .attach => .ok ([], d)
  | .create .. => .ok ([], if d.forks.contains q.key then d else d.put q.key #[])
  | operation =>
    match d.fork? q.key with
    | none => .error (.missing q.key)
    | some pages =>
      match operate blank q.key pages operation with
      | .ok (out, pages) => .ok (out, d.put q.key pages)
      | .error e => .error e

end Device

end BlockLedger
