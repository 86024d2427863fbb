import BlockLedger.Number.Natural
import BlockLedger.Segment.Fault

/-
# Bit streams

Compressed blocks are read bit by bit.  Tables are described in streams that are read forwards,
from the lowest bit of the first byte on; symbols and numbers lie in streams that are read
backwards, from below the highest bit set in the last byte.  A position is a number of bits, so
either way it counts what a reader can still get.
-/

namespace BlockLedger

namespace Zstd

/-- What fails within a frame. -/
abbrev Result := Except InflateError

/-- The byte at a position, 0 beyond the end. -/
def byteAt (data : ByteArray) (i : Nat) : Nat := if h : i < data.size then data[i].toNat else 0

/-- The number that `count` bytes from `start` on stand for, the least significant first. -/
def littleEndian (data : ByteArray) (start : Nat) : Nat → Nat
  | 0 => 0
  | count + 1 => byteAt data start + 256 * littleEndian data (start + 1) count

/-- The `count` bits from bit `start` on, the first of them being the lowest. -/
def bitsAt (data : ByteArray) (start count : Nat) : Nat :=
  let bytes := (start % 8 + count + 7) / 8
  littleEndian data (start / 8) bytes / 2 ^ (start % 8) % 2 ^ count

/-- A stream that is read backwards. -/
structure Backward where
  data : ByteArray
  /-- The bit that the stream starts at, and that reading ends at. -/
  floor : Nat
  /-- How many bits are left. -/
  left : Nat

namespace Backward

/-- The stream in the bytes from `start` on, `size` of them.  The highest bit set in the last byte
marks the end and is not part of it. -/
def ofBytes (data : ByteArray) (start size : Nat) : Result Backward :=
  if size = 0 || data.size < start + size then .error .damaged
  else
    let last := byteAt data (start + size - 1)
    if last = 0 then .error .damaged
    else .ok ⟨data, 8 * start, 8 * (size - 1) + last.log2⟩

/-- The next `count` bits as a number.  Below the start of the stream all bits are 0. -/
def peek (s : Backward) (count : Nat) : Nat :=
  if count ≤ s.left then bitsAt s.data (s.floor + s.left - count) count
  else bitsAt s.data s.floor s.left * 2 ^ (count - s.left)

/-- Skips `count` bits, if there are as many. -/
def skip? (s : Backward) (count : Nat) : Option Backward :=
  if count ≤ s.left then some { s with left := s.left - count } else none

/-- Reads `count` bits as a number. -/
def read (s : Backward) (count : Nat) : Result (Nat × Backward) :=
  match s.skip? count with
  | some rest => .ok (s.peek count, rest)
  | none => .error .damaged

end Backward

end Zstd

end BlockLedger
