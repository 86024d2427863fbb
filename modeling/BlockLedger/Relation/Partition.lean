import BlockLedger.Number.Natural
import BlockLedger.Relation.Key

/-
# Partitions of the key space

Entries are spread over 128 partitions by a hash of their keys, so that callers working on
unrelated keys do not stand in each other's way.  Whoever walks over all entries walks the
partitions in order, so the hash also decides in which order keys are met.

The hash is XXH3 of 64 bits without a seed, for inputs of 9 to 16 bytes: the input is read as two
overlapping words, each mixed with a constant, and the words, their product folded in half and
the length are added up and scrambled.
-/

namespace BlockLedger

namespace Hash

/-- A word with its bytes in reverse order. -/
def reverseBytes (w : UInt64) : UInt64 :=
  let odd : UInt64 := 0x00FF00FF00FF00FF
  let pairs : UInt64 := 0x0000FFFF0000FFFF
  let w : UInt64 := ((w >>> 8) &&& odd) ||| ((w &&& odd) <<< 8)
  let w : UInt64 := ((w >>> 16) &&& pairs) ||| ((w &&& pairs) <<< 16)
  (w >>> 32) ||| (w <<< 32)

/-- The two halves of the full product of two words, combined by exclusive or. -/
def foldedProduct (a b : UInt64) : UInt64 :=
  let product := a.toNat * b.toNat
  UInt64.ofNat product ^^^ UInt64.ofNat (product / 2 ^ 64)

/-- The last scrambling step. -/
def avalanche (h : UInt64) : UInt64 :=
  let h : UInt64 := (h ^^^ (h >>> 37)) * 0x165667919E3779F9
  h ^^^ (h >>> 32)

/-- The hash of an input of 9 to 16 bytes, given its length and its first and last eight bytes as
words, least significant byte first. -/
def ofWords (length : UInt64) (first last : UInt64) : UInt64 :=
  let low := first ^^^ (0x1F67B3B7A4A44072 ^^^ 0x78E5C0CC4EE679CB)
  let high := last ^^^ (0x2172FFCC7DD05A82 ^^^ 0x8E2443F7744608B8)
  avalanche (length + reverseBytes low + high + foldedProduct low high)

end Hash

namespace Key

/-- The hash of a key, taken over its three numbers in four bytes each and one byte for the
fork. -/
def hash64 (k : Key) : UInt64 :=
  let tablespace : UInt64 := k.locator.tablespace.toUInt64
  let database : UInt64 := k.locator.database.toUInt64
  let number : UInt64 := k.locator.number.toUInt64
  Hash.ofWords 13 (tablespace ||| (database <<< 32))
    ((database >>> 8) ||| (number <<< 24) ||| (UInt64.ofNat k.fork.code <<< 56))

/-- How many partitions there are. -/
def partitionCount : Nat := 128

/-- The partition that a key belongs to. -/
def partition (k : Key) : Nat := k.hash64.toNat % partitionCount

theorem partition_lt (k : Key) : k.partition < partitionCount :=
  Nat.mod_lt _ (by decide)

end Key

end BlockLedger
