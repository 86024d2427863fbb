import BlockLedger.Zstd.Fse

/-
# Huffman coding of literals

A prefix code is given by the weights of its symbols: a symbol of weight `w` has `2 ^ (w - 1)`
entries in a table of `2 ^ depth` entries, and its code is what those entries have in common.  The
weight of the last symbol is not written, since it is what is missing for a full table.
-/

namespace BlockLedger

namespace Zstd

/-- The greatest length of a code. -/
def maxDepth : Nat := 12

/-- A code as a table: the next `depth` bits select the symbol and the number of its bits. -/
structure HuffmanTable where
  depth : Nat
  entries : Array (Nat × Nat)
  deriving Inhabited, Repr

namespace HuffmanTable

/-- How many entries symbols of a weight have. -/
def share (weight : Nat) : Nat := if weight = 0 then 0 else 2 ^ (weight - 1)

/-- The entries of all symbols of one weight. -/
def entriesOf (depth : Nat) (weights : List (Nat × Nat)) (weight : Nat) : List (Nat × Nat) :=
  (weights.filter fun p => p.1 == weight).flatMap fun p =>
    List.replicate (share weight) (p.2, depth + 1 - weight)

/-- The table of a code, from the weights of all symbols but the last.  A code that is no longer
than it must be has symbols of weight 1. -/
def ofWeights (weights : List Nat) : Result HuffmanTable :=
  let total := weights.foldl (· + share ·) 0
  if total = 0 then .error .damaged
  else
    let depth := total.log2 + 1
    let rest := 2 ^ depth - total
    if maxDepth < depth || rest ≠ 2 ^ rest.log2 then .error .damaged
    else
      let all := weights ++ [rest.log2 + 1]
      if all.count 1 = 0 then .error .damaged
      else
        .ok ⟨depth,
          ((List.range depth).flatMap fun w => entriesOf depth all.zipIdx (w + 1)).toArray⟩

/-! ## Reading a description -/

/-- The weights that are written in half a byte each, the high half first. -/
def directWeights (data : ByteArray) (start : Nat) (count : Nat) : List Nat :=
  (List.range count).map fun i =>
    let b := byteAt data (start + i / 2)
    if i % 2 = 0 then b / 16 else b % 16

/-- Emits symbols of two states in turn, until the stream has too few bits for the next one; the
symbol of the other state then is the last. -/
def alternate (table : FseTable) : Nat → Nat → Nat → Backward → Result (List Nat)
  | 0, _, _, _ => .error .damaged
  | fuel + 1, now, other, s =>
    let state := table.state now
    match s.read state.bits with
    | .ok (n, s) => do
      return state.symbol :: (← alternate table fuel other (state.base + n) s)
    | .error _ => .ok [state.symbol, (table.state other).symbol]

/-- The weights that are themselves compressed, in `size` bytes. -/
def codedWeights (data : ByteArray) (start size : Nat) : Result (List Nat) := do
  let (table, pos) ← FseTable.read data start (start + size) 6 255
  let s ← Backward.ofBytes data pos (start + size - pos)
  let (one, s) ← s.read table.accuracy
  let (two, s) ← s.read table.accuracy
  alternate table 256 one two s

/-- Reads the description of a code from the bytes from `start` on, before `stop`: the code and the
position after the description. -/
def read (data : ByteArray) (start stop : Nat) : Result (HuffmanTable × Nat) := do
  if stop ≤ start then throw .damaged
  let lead := byteAt data start
  let size := if lead < 128 then lead else (lead - 127 + 1) / 2
  let finish := start + 1 + size
  if stop < finish then throw .damaged
  let weights ←
    if lead < 128 then codedWeights data (start + 1) size
    else pure (directWeights data (start + 1) (lead - 127))
  if 255 < weights.length || weights.any fun w => maxDepth < w then throw .damaged
  return (← ofWeights weights, finish)

/-! ## Reading symbols -/

/-- Reads a number of symbols, after which the stream must be at its end. -/
def symbols (t : HuffmanTable) : Nat → Backward → ByteArray → Result ByteArray
  | 0, s, out => if s.left = 0 then .ok out else .error .damaged
  | count + 1, s, out =>
    let (symbol, bits) := t.entries[s.peek t.depth]?.getD (0, 0)
    match s.skip? bits with
    | some s => symbols t count s (out.push (UInt8.ofNat symbol))
    | none => .error .damaged

/-- Reads a number of symbols from one stream. -/
def oneStream (t : HuffmanTable) (data : ByteArray) (start stop count : Nat) (out : ByteArray) :
    Result ByteArray := do
  symbols t count (← Backward.ofBytes data start (stop - start)) out

/-- Reads a number of symbols from four streams, the first three of which hold a quarter each,
rounded up.  The sizes of those three come first. -/
def fourStreams (t : HuffmanTable) (data : ByteArray) (start stop count : Nat) :
    Result ByteArray := do
  let quarter := (count + 3) / 4
  if stop < start + 6 || count < 3 * quarter then throw .damaged
  let one := start + 6 + littleEndian data start 2
  let two := one + littleEndian data (start + 2) 2
  let three := two + littleEndian data (start + 4) 2
  if stop < three then throw .damaged
  let out ← t.oneStream data (start + 6) one quarter .empty
  let out ← t.oneStream data one two quarter out
  let out ← t.oneStream data two three quarter out
  t.oneStream data three stop (count - 3 * quarter) out

end HuffmanTable

end Zstd

end BlockLedger
