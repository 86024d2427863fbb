import BlockLedger.Bytes.LittleEndian
import BlockLedger.Zstd.Checksum
import BlockLedger.Zstd.Huffman
import BlockLedger.Zstd.Sequences

/-
# Compressed frames

Compressed data is a row of frames: a header, blocks, and perhaps a checksum.  A block holds its
bytes as they are, or one byte to be repeated, or literals and sequences.  Frames of another kind
may stand in between and are skipped.

What is written here is a single frame with its bytes as they are, cut into blocks; what is read
may have been written by any compressor.
-/

namespace BlockLedger

namespace Zstd

/-- What a frame's blocks have in common. -/
structure Context where
  out : ByteArray
  /-- The code that was used last for literals. -/
  code : Option HuffmanTable := none
  tables : SequenceTables := {}
  /-- The last three distances, the latest first. -/
  recent : Nat × Nat × Nat := (1, 4, 8)

/-! ## Literals -/

/-- Reads the part of a block that holds its literals: the literals, the code for the next block,
and the position after them. -/
def readLiterals (data : ByteArray) (pos stop limit : Nat) (code : Option HuffmanTable) :
    Result (ByteArray × Option HuffmanTable × Nat) := do
  if stop ≤ pos then throw .damaged
  let lead := byteAt data pos
  let kind := lead % 4
  let format := lead / 4 % 4
  if kind < 2 then
    let (size, pos) :=
      if format % 2 = 0 then (lead / 8, pos + 1)
      else if format = 1 then (littleEndian data pos 2 / 16, pos + 2)
      else (littleEndian data pos 3 / 16, pos + 3)
    if limit < size then throw .damaged
    if kind = 0 then
      if stop < pos + size then throw .damaged
      return (data.extract pos (pos + size), code, pos + size)
    else
      if stop < pos + 1 then throw .damaged
      return (⟨Array.replicate size (UInt8.ofNat (byteAt data pos))⟩, code, pos + 1)
  else
    let width := if format < 2 then 10 else if format = 2 then 14 else 18
    let head := if format < 2 then 3 else if format = 2 then 4 else 5
    let sizes := littleEndian data pos head / 16
    let size := sizes % 2 ^ width
    let packed := sizes / 2 ^ width % 2 ^ width
    let start := pos + head
    let finish := start + packed
    if limit < size || stop < finish then throw .damaged
    let (code, start) ←
      if kind = 2 then HuffmanTable.read data start finish
      else
        match code with
        | some code => pure (code, start)
        | none => throw .damaged
    let literals ←
      if format = 0 then code.oneStream data start finish size .empty
      else code.fourStreams data start finish size
    return (literals, some code, finish)

/-! ## Sequences -/

/-- The distance that an offset stands for, and the last three distances after it.  A reference
after a sequence without literals counts from one further. -/
def distance (sequence : Sequence) (recent : Nat × Nat × Nat) : Nat × (Nat × Nat × Nat) :=
  let (a, b, c) := recent
  if 3 < sequence.offset then
    let d := sequence.offset - 3
    (d, (d, a, b))
  else
    let reference := if sequence.literals = 0 then sequence.offset + 1 else sequence.offset
    match reference with
    | 0 | 1 => (a, (a, b, c))
    | 2 => (b, (b, a, c))
    | 3 => (c, (c, a, b))
    | _ => (a - 1, (a - 1, a, b))

/-- Copies bytes of the output that lie a distance back, one after the other. -/
def copyBack (distance : Nat) : Nat → ByteArray → ByteArray
  | 0, out => out
  | count + 1, out =>
    copyBack distance count (out.push (UInt8.ofNat (byteAt out (out.size - distance))))

/-- Carries out sequences, and then copies the literals that are left: the output and the last three
distances. -/
def execute (literals : ByteArray) :
    List Sequence → Nat → ByteArray → Nat × Nat × Nat → Result (ByteArray × (Nat × Nat × Nat))
  | [], pos, out, recent => .ok (out ++ literals.extract pos literals.size, recent)
  | sequence :: rest, pos, out, recent =>
    let next := pos + sequence.literals
    let out := out ++ literals.extract pos next
    let (back, recent) := distance sequence recent
    if literals.size < next || back = 0 || out.size < back then .error .damaged
    else execute literals rest next (copyBack back sequence.length out) recent

/-! ## Blocks -/

/-- Reads a block that holds literals and sequences. -/
def readCompressed (data : ByteArray) (pos stop limit : Nat) (cx : Context) : Result Context := do
  let { out, code, tables, recent } := cx
  let (literals, code, pos) ← readLiterals data pos stop limit code
  let (sequences, tables) ← readSequencePart data pos stop tables
  let before := out.size
  let (out, recent) ← execute literals sequences 0 out recent
  if limit < out.size - before then throw .damaged
  return { out, code, tables, recent }

/-- Reads blocks up to the last one, none of them of more than `limit` bytes: what they add up to
and the position after them. -/
def readBlocks (data : ByteArray) (limit : Nat) : Nat → Nat → Context → Result (Context × Nat)
  | 0, _, _ => .error .incomplete
  | fuel + 1, pos, cx => do
    if data.size < pos + 3 then throw .incomplete
    let head := littleEndian data pos 3
    let size := head / 8
    let kind := head / 2 % 4
    let start := pos + 3
    let finish := if kind = 1 then start + 1 else start + size
    if kind = 3 || limit < size then throw .damaged
    if data.size < finish then throw .incomplete
    let cx ←
      if kind = 0 then pure { cx with out := cx.out ++ data.extract start finish }
      else if kind = 1 then
        pure { cx with
          out := cx.out ++ ⟨Array.replicate size (UInt8.ofNat (byteAt data start))⟩ }
      else readCompressed data start finish limit cx
    if head % 2 = 1 then return (cx, finish) else readBlocks data limit fuel finish cx

/-! ## Frames -/

/-- The number that every frame starts with. -/
def magic : Nat := 0xFD2FB528

/-- The greatest window that is granted. -/
def maxWindow : Nat := 2 ^ 27 + 1

/-- The greatest number of bytes in a block. -/
def maxBlock : Nat := 2 ^ 17

/-- Reads the frame that starts at `pos`: its contents and the position after it. -/
def readFrame (data : ByteArray) (pos : Nat) : Result (ByteArray × Nat) := do
  if data.size < pos + 5 then throw .incomplete
  let descriptor := byteAt data (pos + 4)
  let single := descriptor / 32 % 2 = 1
  let sizeBytes :=
    match descriptor / 64 with
    | 0 => if single then 1 else 0
    | 1 => 2
    | 2 => 4
    | _ => 8
  let dictionaryBytes := [0, 1, 2, 4].getD (descriptor % 4) 0
  let windowPos := pos + 5
  let dictionaryPos := if single then windowPos else windowPos + 1
  let sizePos := dictionaryPos + dictionaryBytes
  let start := sizePos + sizeBytes
  if data.size < start then throw .incomplete
  if descriptor / 8 % 2 = 1 then throw .unsupported
  if littleEndian data dictionaryPos dictionaryBytes ≠ 0 then throw .dictionary
  let declared := littleEndian data sizePos sizeBytes + (if sizeBytes = 2 then 256 else 0)
  let windowByte := byteAt data windowPos
  let base := 2 ^ (10 + windowByte / 8)
  let window := if single then declared else base + base / 8 * (windowByte % 8)
  if maxWindow < window then throw .window
  let (cx, finish) ←
    readBlocks data (min window maxBlock) data.size start { out := ByteArray.empty }
  if sizeBytes ≠ 0 && cx.out.size ≠ declared then throw .damaged
  if descriptor / 4 % 2 = 0 then return (cx.out, finish)
  if data.size < finish + 4 then throw .incomplete
  if littleEndian data finish 4 ≠ (Checksum.hash cx.out).toNat % 2 ^ 32 then throw .checksum
  return (cx.out, finish + 4)

/-- Whether the bytes from `pos` on start like a number, as far as they go. -/
def startsLike (data : ByteArray) (pos number : Nat) : Bool :=
  let count := min 4 (data.size - pos)
  littleEndian data pos count = number % 256 ^ count

/-- Whether the bytes from `pos` on start like a frame that is to be skipped. -/
def startsSkippable (data : ByteArray) (pos : Nat) : Bool :=
  byteAt data pos / 16 = 5 && startsLike data pos (0x184D2A50 + byteAt data pos % 16)

/-- Reads frames up to the end, adding their contents to `out`. -/
def readFrames (data : ByteArray) : Nat → Nat → ByteArray → Result ByteArray
  | 0, _, out => .ok out
  | fuel + 1, pos, out =>
    if data.size ≤ pos then .ok out
    else if startsLike data pos magic then
      match readFrame data pos with
      | .ok (content, pos) => readFrames data fuel pos (out ++ content)
      | .error e => .error e
    else if startsSkippable data pos then
      let finish := pos + 8 + littleEndian data (pos + 4) 4
      if data.size < pos + 8 || data.size < finish then .error .incomplete
      else readFrames data fuel finish out
    else .error .unknownFrame

/-- Expands compressed bytes.  There must be at least one frame. -/
def expand (bytes : List UInt8) : Result (List UInt8) :=
  let data : ByteArray := ⟨bytes.toArray⟩
  if data.size = 0 then .error .incomplete
  else (readFrames data data.size 0 .empty).map fun out => out.data.toList

/-! ## Writing -/

/-- The bytes as blocks of at most `maxBlock` bytes, the last of them marked. -/
def blocks : Nat → List UInt8 → List UInt8
  | 0, _ => []
  | fuel + 1, bytes =>
    let rest := bytes.drop maxBlock
    let block := bytes.take maxBlock
    let head := 8 * block.length + (if rest.isEmpty then 1 else 0)
    LittleEndian.encode 3 head ++ block ++ if rest.isEmpty then [] else blocks fuel rest

/-- A frame that holds the bytes as they are.  Its header tells a window of `2 ^ 21` bytes and no
length, so there is no limit to what it may hold. -/
def enclose (bytes : List UInt8) : List UInt8 :=
  LittleEndian.encode 4 magic ++ [0x00, 0x58] ++ blocks (bytes.length + 1) bytes

end Zstd

end BlockLedger
