/-
# The CRC-32 checksum

The cyclic redundancy check of 32 bits with the reflected polynomial `0xEDB88320`: the register
starts with all ones, takes in every byte in eight steps, least significant bit first, and is
inverted at the end.
-/

namespace BlockLedger

namespace Crc32

/-- The polynomial, without its highest power, bits reversed. -/
def polynomial : UInt32 := 0xEDB88320

/-- One step of the register. -/
def shift (r : UInt32) : UInt32 :=
  if r &&& 1 = 1 then (r >>> 1) ^^^ polynomial else r >>> 1

/-- A number of steps of the register. -/
def shifts : Nat → UInt32 → UInt32
  | 0, r => r
  | n + 1, r => shifts n (shift r)

/-- Takes in one byte. -/
def step (r : UInt32) (b : UInt8) : UInt32 := shifts 8 (r ^^^ b.toUInt32)

/-- The register after a sequence of bytes. -/
def register (r : UInt32) (bytes : List UInt8) : UInt32 := bytes.foldl step r

/-- The checksum of a sequence of bytes. -/
def checksum (bytes : List UInt8) : UInt32 := register 0xFFFFFFFF bytes ^^^ 0xFFFFFFFF

end Crc32

end BlockLedger
