import BlockLedger.Zstd.Fse

/-
# Sequences

A compressed block is a list of sequences: copy some literals, then copy again something that was
written before.  The three numbers of a sequence are coded by a symbol, for its magnitude, and some
further bits.  Where the earlier text lies is told either by its distance or by a reference to one
of the last three distances.
-/

namespace BlockLedger

namespace Zstd

/-- One step of a block. -/
structure Sequence where
  /-- How many literals are copied first. -/
  literals : Nat
  /-- How many bytes of earlier output are copied then. -/
  length : Nat
  /-- Where they lie: a distance plus 3, or a reference from 1 to 3. -/
  offset : Nat
  deriving Inhabited, Repr

/-- Magnitudes of a coded number: the least value of each, and how many bits add to it. -/
abbrev Magnitudes := Array (Nat × Nat)

/-- The magnitudes that take `bits` further bits each, one list of bits after the other from a
first value on. -/
def magnitudesFrom : Nat → List Nat → List (Nat × Nat)
  | _, [] => []
  | base, bits :: rest => (base, bits) :: magnitudesFrom (base + 2 ^ bits) rest

/-- The magnitudes of literal counts. -/
def literalMagnitudes : Magnitudes :=
  (magnitudesFrom 0 (List.replicate 16 0
    ++ [1, 1, 1, 1, 2, 2, 3, 3, 4, 6, 7, 8, 9, 10, 11, 12, 13, 14, 15, 16])).toArray

/-- The magnitudes of match lengths. -/
def lengthMagnitudes : Magnitudes :=
  (magnitudesFrom 3 (List.replicate 32 0
    ++ [1, 1, 1, 1, 2, 2, 3, 3, 4, 4, 5, 7, 8, 9, 10, 11, 12, 13, 14, 15, 16])).toArray

/-- The shares of literal counts in blocks that bring no table. -/
def literalShares : Array Int :=
  #[4, 3, 2, 2, 2, 2, 2, 2, 2, 2, 2, 2, 2, 1, 1, 1, 2, 2, 2, 2, 2, 2, 2, 2, 2, 3, 2, 1, 1, 1, 1, 1,
    -1, -1, -1, -1]

/-- The shares of match lengths in blocks that bring no table. -/
def lengthShares : Array Int :=
  #[1, 4, 3, 2, 2, 2, 2, 2, 2, 1, 1, 1, 1, 1, 1, 1, 1, 1, 1, 1, 1, 1, 1, 1, 1, 1, 1, 1, 1, 1, 1, 1,
    1, 1, 1, 1, 1, 1, 1, 1, 1, 1, 1, 1, 1, 1, -1, -1, -1, -1, -1, -1, -1]

/-- The shares of offsets in blocks that bring no table. -/
def offsetShares : Array Int :=
  #[1, 1, 1, 1, 1, 1, 2, 2, 2, 1, 1, 1, 1, 1, 1, 1, 1, 1, 1, 1, 1, 1, 1, 1, -1, -1, -1, -1, -1]

/-- The tables that a block was read with, for blocks that use them again. -/
structure SequenceTables where
  literals : Option FseTable := none
  offsets : Option FseTable := none
  lengths : Option FseTable := none
  deriving Inhabited

/-- Reads a table in one of four modes: the fixed one, a single symbol, a description, or the one
that was used before. -/
def readTable (data : ByteArray) (pos stop mode accuracy maxAccuracy maxSymbol : Nat)
    (shares : Array Int) (before : Option FseTable) : Result (FseTable × Nat) :=
  match mode with
  | 0 => .ok (.ofShares accuracy shares, pos)
  | 1 =>
    if pos < stop && byteAt data pos ≤ maxSymbol then .ok (.constant (byteAt data pos), pos + 1)
    else .error .damaged
  | 2 => FseTable.read data pos stop maxAccuracy maxSymbol
  | _ =>
    match before with
    | some table => .ok (table, pos)
    | none => .error .damaged

/-- The states of the three tables. -/
structure SequenceStates where
  literals : Nat
  offsets : Nat
  lengths : Nat

/-- Reads sequences, starting from given states; after the last one the stream must be at its
end. -/
def readSequences (literals offsets lengths : FseTable) :
    Nat → SequenceStates → Backward → Result (List Sequence)
  | 0, _, s => if s.left = 0 then .ok [] else .error .damaged
  | count + 1, states, s => do
    let literal := literals.state states.literals
    let offset := offsets.state states.offsets
    let length := lengths.state states.lengths
    let (literalBase, literalBits) := literalMagnitudes[literal.symbol]?.getD (0, 0)
    let (lengthBase, lengthBits) := lengthMagnitudes[length.symbol]?.getD (3, 0)
    let (offsetRest, s) ← s.read offset.symbol
    let (lengthRest, s) ← s.read lengthBits
    let (literalRest, s) ← s.read literalBits
    let sequence : Sequence :=
      { literals := literalBase + literalRest
        length := lengthBase + lengthRest
        offset := 2 ^ offset.symbol + offsetRest }
    if count = 0 then return sequence :: (← readSequences literals offsets lengths 0 states s)
    let (literalNext, s) ← s.read literal.bits
    let (lengthNext, s) ← s.read length.bits
    let (offsetNext, s) ← s.read offset.bits
    let states : SequenceStates :=
      { literals := literal.base + literalNext
        offsets := offset.base + offsetNext
        lengths := length.base + lengthNext }
    return sequence :: (← readSequences literals offsets lengths count states s)

/-- Reads the part of a block that holds its sequences: from the bytes from `pos` on, before
`stop`. -/
def readSequencePart (data : ByteArray) (pos stop : Nat) (before : SequenceTables) :
    Result (List Sequence × SequenceTables) := do
  if stop ≤ pos then throw .damaged
  let lead := byteAt data pos
  if lead = 0 then
    if pos + 1 = stop then return ([], before) else throw .damaged
  let (count, pos) :=
    if lead < 128 then (lead, pos + 1)
    else if lead < 255 then (256 * (lead - 128) + byteAt data (pos + 1), pos + 2)
    else (littleEndian data (pos + 1) 2 + 0x7F00, pos + 3)
  if stop ≤ pos then throw .damaged
  let modes := byteAt data pos
  if modes % 4 ≠ 0 then throw .damaged
  let (literals, pos) ←
    readTable data (pos + 1) stop (modes / 64) 6 9 35 literalShares before.literals
  let (offsets, pos) ← readTable data pos stop (modes / 16 % 4) 5 8 31 offsetShares before.offsets
  let (lengths, pos) ← readTable data pos stop (modes / 4 % 4) 6 9 52 lengthShares before.lengths
  let s ← Backward.ofBytes data pos (stop - pos)
  let (literalState, s) ← s.read literals.accuracy
  let (offsetState, s) ← s.read offsets.accuracy
  let (lengthState, s) ← s.read lengths.accuracy
  let sequences ←
    readSequences literals offsets lengths count ⟨literalState, offsetState, lengthState⟩ s
  return (sequences, ⟨some literals, some offsets, some lengths⟩)

end Zstd

end BlockLedger
