import BlockLedger.Zstd.Bits

/-
# Tables of finite state entropy coding

A table has a state for every share that a symbol has in a total of a power of two.  Being in a
state, a reader emits its symbol, reads the state's number of bits, and goes to the state's base
plus the number read.  A table is described by the shares of its symbols, in ever fewer bits as
the rest of the total shrinks; the share -1 stands for a symbol so rare that it gets a single state
at the end of the table and a full read behind it.
-/

namespace BlockLedger

namespace Zstd

/-- A state of a table. -/
structure FseState where
  symbol : Nat := 0
  /-- How many bits lead to the next state. -/
  bits : Nat := 0
  /-- What is added to them. -/
  base : Nat := 0
  deriving Inhabited, Repr

/-- A table of states, `2 ^ accuracy` of them. -/
structure FseTable where
  accuracy : Nat
  states : Array FseState
  deriving Inhabited, Repr

namespace FseTable

/-- The table that has a single state and never reads a bit. -/
def constant (symbol : Nat) : FseTable := ⟨0, #[{ symbol }]⟩

/-- A state of the table. -/
def state (t : FseTable) (i : Nat) : FseState := t.states[i]?.getD {}

/-! ## From shares to states -/

/-- Puts the symbols of share -1 at the end of the table, from the last position downwards; returns
the position below the last one used. -/
def placeRare (shares : Array Int) : Nat → Nat → Array Nat → Nat × Array Nat
  | 0, high, symbols => (high, symbols)
  | count + 1, high, symbols =>
    let symbol := shares.size - (count + 1)
    if shares[symbol]?.getD 0 = -1 then
      placeRare shares count (high - 1) (symbols.setIfInBounds high symbol)
    else placeRare shares count high symbols

/-- The next position to be filled, beyond those that are taken by rare symbols. -/
def nextPlace (size high step : Nat) : Nat → Nat → Nat
  | 0, pos => pos
  | fuel + 1, pos =>
    let pos := (pos + step) % size
    if high < pos then nextPlace size high step fuel pos else pos

/-- Puts one symbol at a number of positions. -/
def placeMany (size high step symbol : Nat) : Nat → Nat → Array Nat → Nat × Array Nat
  | 0, pos, symbols => (pos, symbols)
  | count + 1, pos, symbols =>
    placeMany size high step symbol count (nextPlace size high step size pos)
      (symbols.setIfInBounds pos symbol)

/-- Spreads all other symbols over the table. -/
def placeAll (size high step : Nat) :
    List (Int × Nat) → Nat → Array Nat → Array Nat
  | [], _, symbols => symbols
  | (share, symbol) :: rest, pos, symbols =>
    let (pos, symbols) := placeMany size high step symbol share.toNat pos symbols
    placeAll size high step rest pos symbols

/-- Numbers the states of each symbol upwards from its share, which tells how many bits each of
them reads and where they lead to. -/
def number (accuracy : Nat) (symbols : List Nat) (next : Array Nat) : List FseState :=
  match symbols with
  | [] => []
  | symbol :: rest =>
    let n := next[symbol]?.getD 1
    let bits := accuracy - n.log2
    { symbol, bits, base := n * 2 ^ bits - 2 ^ accuracy }
      :: number accuracy rest (next.setIfInBounds symbol (n + 1))

/-- The table with the given shares in a total of `2 ^ accuracy`. -/
def ofShares (accuracy : Nat) (shares : Array Int) : FseTable :=
  let size := 2 ^ accuracy
  let (high, symbols) := placeRare shares shares.size (size - 1) (Array.replicate size 0)
  let step := size / 2 + size / 8 + 3
  let symbols := placeAll size high step shares.toList.zipIdx 0 symbols
  ⟨accuracy, (number accuracy symbols.toList (shares.map fun s => s.natAbs)).toArray⟩

/-! ## Reading a description -/

/-- Reads how many symbols without a share follow, in groups of up to three. -/
def readGap (data : ByteArray) : Nat → Nat → Nat × Nat
  | 0, pos => (0, pos)
  | fuel + 1, pos =>
    let n := bitsAt data pos 2
    if n = 3 then
      let (more, pos) := readGap data fuel (pos + 2)
      (3 + more, pos)
    else (n, pos + 2)

/-- Reads one share, while `rest` of the total is left: the share and the position after it.  What
a value can be shrinks with the rest, and the smaller values take one bit less. -/
def readShare (data : ByteArray) (rest pos : Nat) : Int × Nat :=
  let bits := (rest + 1).log2 + 1
  let value := bitsAt data pos bits
  let low := value % 2 ^ (bits - 1)
  let threshold := 2 ^ bits - 1 - (rest + 1)
  if low < threshold then ((low : Int) - 1, pos + bits - 1)
  else if 2 ^ (bits - 1) ≤ value then ((value - threshold : Nat) - 1, pos + bits)
  else ((value : Int) - 1, pos + bits)

/-- Reads shares until the total is reached. -/
def readShares (data : ByteArray) (maxSymbol : Nat) :
    Nat → Nat → Nat → Array Int → Result (Array Int × Nat)
  | 0, _, _, _ => .error .damaged
  | fuel + 1, rest, pos, shares =>
    if rest = 0 then .ok (shares, pos)
    else if maxSymbol < shares.size then .error .damaged
    else
      let (share, pos) := readShare data rest pos
      let shares := shares.push share
      if rest < share.natAbs then .error .damaged
      else if share = 0 then
        let (gap, pos) := readGap data (8 * data.size) pos
        readShares data maxSymbol fuel rest pos (shares ++ Array.replicate gap 0)
      else readShares data maxSymbol fuel (rest - share.natAbs) pos shares

/-- Reads the description of a table from the bytes from `start` on, before `stop`: the table and
the position after the description. -/
def read (data : ByteArray) (start stop maxAccuracy maxSymbol : Nat) : Result (FseTable × Nat) := do
  if stop ≤ start then throw .damaged
  let accuracy := bitsAt data (8 * start) 4 + 5
  if maxAccuracy < accuracy then throw .damaged
  let (shares, pos) ←
    readShares data maxSymbol (maxSymbol + 2) (2 ^ accuracy) (8 * start + 4) #[]
  let finish := (pos + 7) / 8
  if maxSymbol + 1 < shares.size || stop < finish then throw .damaged
  return (ofShares accuracy shares, finish)

end FseTable

end Zstd

end BlockLedger
