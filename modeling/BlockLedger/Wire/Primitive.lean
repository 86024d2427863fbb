import BlockLedger.Bytes.LittleEndian
import BlockLedger.Number.Double
import BlockLedger.Segment.Fault

/-
# The wire form of simple values

Records are written as one value after the other, without names or lengths where those are known
from the type.  A natural number takes as many bytes as it needs, seven bits in each, lowest
first, with the high bit set in all but the last; an integer is first folded onto the natural
numbers.  Doubles take eight bytes, texts and lists are preceded by their length, and optional
values and alternatives by a number.

Reading names the width that a number may have, and fails on numbers that go beyond it.
-/

namespace BlockLedger

namespace Wire

/-- Reads a value from the front of a sequence of bytes, and leaves the rest. -/
abbrev Reader := StateT (List UInt8) (Except WireError)

/-- Reads one byte. -/
def byte : Reader UInt8 := fun
  | [] => .error .ended
  | b :: rest => .ok (b, rest)

/-! ## Numbers -/

/-- The bytes of a natural number. -/
def ofNat (n : Nat) : List UInt8 :=
  if n < 128 then [UInt8.ofNat n] else UInt8.ofNat (n % 128 + 128) :: ofNat (n / 128)
termination_by n
decreasing_by omega

/-- Reads a natural number below `2 ^ bits`: each byte brings seven bits, until one without the
high bit.  The last byte that there is room for may bring only the bits that are left, and must be
the end. -/
def natBelow (bits : Nat) : Reader Nat := fun
  | [] => .error .ended
  | b :: rest =>
    let n := b.toNat
    if bits ≤ 7 then
      if n < 2 ^ bits then .ok (n, rest) else .error .number
    else if n < 128 then .ok (n, rest)
    else
      match natBelow (bits - 7) rest with
      | .ok (m, rest) => .ok (n - 128 + 128 * m, rest)
      | .error e => .error e

/-- Reads a number of 64 bits. -/
def nat64 : Reader Nat := natBelow 64

/-- Reads a number of 32 bits. -/
def nat32 : Reader Nat := natBelow 32

/-- Reads the number of a database object or a block. -/
def word32 : Reader UInt32 := do return UInt32.ofNat (← nat32)

/-- Folds the integers onto the natural numbers: 0, -1, 1, -2, 2 and so on. -/
def fold (i : Int) : Nat :=
  match i with
  | .ofNat n => 2 * n
  | .negSucc n => 2 * n + 1

/-- Undoes `fold`. -/
def unfold (n : Nat) : Int := if n % 2 = 0 then Int.ofNat (n / 2) else Int.negSucc (n / 2)

/-- The bytes of an integer. -/
def ofInt (i : Int) : List UInt8 := ofNat (fold i)

/-- Reads an integer of 64 bits. -/
def int64 : Reader Int := do return unfold (← nat64)

/-- The first bytes of a sequence, `count` of them, and the rest. -/
def split : Nat → List UInt8 → Option (List UInt8 × List UInt8)
  | 0, bytes => some ([], bytes)
  | _ + 1, [] => none
  | count + 1, b :: rest => (split count rest).map fun (front, rest) => (b :: front, rest)

/-- Reads a number of bytes. -/
def take (count : Nat) : Reader (List UInt8) := fun bytes =>
  match split count bytes with
  | some found => .ok found
  | none => .error .ended

/-- The bytes of a double. -/
def ofDouble (x : Double) : List UInt8 := LittleEndian.encode 8 x.bits.toNat

/-- Reads a double. -/
def double : Reader Double := do
  return ⟨UInt64.ofNat (LittleEndian.decode (← take 8))⟩

/-! ## Other simple values -/

/-- The byte of a truth value. -/
def ofBool (b : Bool) : List UInt8 := [if b then 1 else 0]

/-- Reads a truth value. -/
def bool : Reader Bool := do
  match (← byte).toNat with
  | 0 => return false
  | 1 => return true
  | _ => throw .bool

/-- The bytes of a text in UTF-8, preceded by their number. -/
def ofText (s : String) : List UInt8 := ofNat s.utf8ByteSize ++ s.toUTF8.data.toList

/-- Reads a text. -/
def text : Reader String := do
  let bytes ← take (← nat64)
  match String.fromUTF8? ⟨bytes.toArray⟩ with
  | some s => return s
  | none => throw .text

/-- The bytes of an optional value. -/
def ofOption {α : Type} (write : α → List UInt8) : Option α → List UInt8
  | none => [0]
  | some a => 1 :: write a

/-- Reads an optional value. -/
def option {α : Type} (read : Reader α) : Reader (Option α) := do
  match (← byte).toNat with
  | 0 => return none
  | 1 => return some (← read)
  | _ => throw .option

/-- Reads the number of an alternative. -/
def alternative {α : Type} (ofCode? : Nat → Option α) : Reader α := do
  match ofCode? (← nat32) with
  | some a => return a
  | none => throw .alternative

/-- The bytes of a list, preceded by its length. -/
def ofList {α : Type} (write : α → List UInt8) (xs : List α) : List UInt8 :=
  ofNat xs.length ++ xs.flatMap write

/-- Reads a number of values. -/
def times {α : Type} (read : Reader α) : Nat → Reader (List α)
  | 0 => return []
  | n + 1 => do
    let a ← read
    return a :: (← times read n)

/-- Reads a list. -/
def list {α : Type} (read : Reader α) : Reader (List α) := do times read (← nat64)

end Wire

end BlockLedger
