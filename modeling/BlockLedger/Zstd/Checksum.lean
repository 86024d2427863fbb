import BlockLedger.Zstd.Bits

/-
# The checksum of frame contents

XXH64 without a seed: four lanes take in eight bytes each in turn, are merged, and what is left
over is taken in by words, half words and bytes.  A frame keeps the lowest four bytes.
-/

namespace BlockLedger

namespace Zstd

namespace Checksum

def prime1 : UInt64 := 0x9E3779B185EBCA87
def prime2 : UInt64 := 0xC2B2AE3D27D4EB4F
def prime3 : UInt64 := 0x165667B19E3779F9
def prime4 : UInt64 := 0x85EBCA77C2B2AE63
def prime5 : UInt64 := 0x27D4EB2F165667C5

/-- A word with its bits turned to the left. -/
def rotate (w : UInt64) (count : UInt64) : UInt64 := (w <<< count) ||| (w >>> (64 - count))

/-- A lane takes in a word. -/
def round (lane word : UInt64) : UInt64 := rotate (lane + word * prime2) 31 * prime1

/-- Merges a lane into the hash. -/
def merge (hash lane : UInt64) : UInt64 := (hash ^^^ round 0 lane) * prime1 + prime4

/-- The word at a position. -/
def wordAt (data : ByteArray) (i : Nat) : UInt64 := UInt64.ofNat (littleEndian data i 8)

/-- Takes in stripes of 32 bytes. -/
def stripes (data : ByteArray) :
    Nat → Nat → UInt64 × UInt64 × UInt64 × UInt64 → UInt64 × UInt64 × UInt64 × UInt64
  | 0, _, lanes => lanes
  | count + 1, i, (a, b, c, d) =>
    stripes data count (i + 32)
      (round a (wordAt data i), round b (wordAt data (i + 8)), round c (wordAt data (i + 16)),
        round d (wordAt data (i + 24)))

/-- Takes in whole words. -/
def words (data : ByteArray) : Nat → Nat → UInt64 → UInt64
  | 0, _, h => h
  | count + 1, i, h =>
    words data count (i + 8) (rotate (h ^^^ round 0 (wordAt data i)) 27 * prime1 + prime4)

/-- Takes in single bytes. -/
def bytes (data : ByteArray) : Nat → Nat → UInt64 → UInt64
  | 0, _, h => h
  | count + 1, i, h =>
    bytes data count (i + 1)
      (rotate (h ^^^ (UInt64.ofNat (byteAt data i) * prime5)) 11 * prime1)

/-- The last scrambling steps. -/
def avalanche (h : UInt64) : UInt64 :=
  let h := (h ^^^ (h >>> 33)) * prime2
  let h := (h ^^^ (h >>> 29)) * prime3
  h ^^^ (h >>> 32)

/-- The hash of a sequence of bytes. -/
def hash (data : ByteArray) : UInt64 :=
  let count := data.size / 32
  let start :=
    if count = 0 then prime5
    else
      let (a, b, c, d) :=
        stripes data count 0 (prime1 + prime2, prime2, 0, 0 - prime1)
      merge (merge (merge (merge (rotate a 1 + rotate b 7 + rotate c 12 + rotate d 18) a) b) c) d
  let i := 32 * count
  let h := words data ((data.size - i) / 8) i (start + UInt64.ofNat data.size)
  let i := i + 8 * ((data.size - i) / 8)
  let half := (data.size - i) / 4
  let h :=
    if half = 0 then h
    else rotate (h ^^^ (UInt64.ofNat (littleEndian data i 4) * prime1)) 23 * prime2 + prime3
  let i := i + 4 * half
  avalanche (bytes data (data.size - i) i h)

end Checksum

end Zstd

end BlockLedger
