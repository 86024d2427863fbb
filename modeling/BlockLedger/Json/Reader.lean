import BlockLedger.Number.Binary64

/-
# Reading JSON

Words, numbers and texts of a JSON document, read from the front of its bytes.  Where a value of
some kind is expected and one of another kind is found, that other value is read to its end, so
that what is malformed is told from what is merely unsuitable.

Texts may hold any UTF-8, and escapes that name characters by their UTF-16 units.  Numbers that
are no natural numbers are only checked: nothing here has a use for them.
-/

namespace BlockLedger

namespace Json

/-- What is wrong with a document. -/
inductive Flaw where
  /-- It ends too early. -/
  | incomplete
  /-- It is not JSON. -/
  | malformed
  /-- It is JSON, but not of the kind that is expected. -/
  | unsuitable
  deriving DecidableEq, Inhabited, Repr

namespace Flaw

/-- The flaw in words. -/
def message : Flaw → String
  | incomplete => "the document ends too early"
  | malformed => "the document is malformed"
  | unsuitable => "the document holds something unexpected"

end Flaw

/-- Reads something from the front of a sequence of bytes, and leaves the rest. -/
abbrev Reader := StateT (List UInt8) (Except Flaw)

/-- The byte of an ASCII character. -/
def ascii (c : Char) : UInt8 := UInt8.ofNat c.toNat

/-- Whether a byte is that of a blank. -/
def isBlank (b : UInt8) : Bool := b == 32 || b == 10 || b == 9 || b == 13

/-- Whether a byte is that of a decimal digit. -/
def isDigit (b : UInt8) : Bool := 48 ≤ b && b ≤ 57

/-- The value of a decimal digit. -/
def digit (b : UInt8) : Nat := b.toNat - 48

/-- The next byte after any blanks, which are dropped. -/
def peek : Reader (Option UInt8) := fun bytes =>
  let rest := bytes.dropWhile isBlank
  .ok (rest.head?, rest)

/-- The next byte after any blanks; there must be one. -/
def peekByte : Reader UInt8 := do
  match ← peek with
  | some b => return b
  | none => throw .incomplete

/-- Drops one byte. -/
def skip : Reader Unit := fun bytes => .ok ((), bytes.drop 1)

/-- Reads the given characters. -/
def word : List Char → Reader Unit
  | [], bytes => .ok ((), bytes)
  | _ :: _, [] => .error .incomplete
  | c :: cs, b :: rest => if b = ascii c then word cs rest else .error .malformed

/-! ## Numbers -/

/-- A number, as far as it matters. -/
inductive Number where
  /-- A natural number below `2 ^ 64`, written without sign, fraction and exponent. -/
  | natural (n : Nat)
  | other
  deriving DecidableEq, Repr

/-- The digits at the front, and the rest. -/
def digits (bytes : List UInt8) : List UInt8 × List UInt8 := bytes.span isDigit

/-- Adds digits to a number as long as it stays below `2 ^ 64`: the number, and how many digits
were left out. -/
def accumulate (n : Nat) : List UInt8 → Nat × Nat
  | [] => (n, 0)
  | d :: ds =>
    if 10 * n + digit d < 2 ^ 64 then accumulate (10 * n + digit d) ds else (n, ds.length + 1)

/-- Whether `n * 10 ^ exponent` is too great for a double.  Both factors are rounded to doubles
before they are multiplied. -/
def exceedsDouble (n : Nat) (exponent : Int) : Bool :=
  n ≠ 0 && (308 < exponent
    || 0 ≤ exponent
      && 2 ^ 1024 - 2 ^ 970 ≤ Binary64.roundNat n * Binary64.roundNat (10 ^ exponent.toNat))

/-- The end of a number that is no natural number. -/
def finish (n : Nat) (exponent : Int) : Reader Number :=
  if exceedsDouble n exponent then throw .malformed else pure .other

/-- The greatest exponent that is told from greater ones. -/
def maxExponent : Nat := 2 ^ 31 - 1

/-- Reads an exponent, of which the mark is next, after a number `n * 10 ^ exponent`. -/
def exponentPart (n : Nat) (exponent : Int) : Reader Number := fun bytes =>
  let (negative, bytes) :=
    match bytes.drop 1 with
    | 43 :: rest => (false, rest)
    | 45 :: rest => (true, rest)
    | rest => (false, rest)
  match bytes, digits bytes with
  | [], _ => .error .incomplete
  | _, ([], _) => .error .malformed
  | _, (ds, rest) =>
    let e := ds.foldl (fun e d => 10 * e + digit d) 0
    if maxExponent < e then
      if n ≠ 0 && !negative then .error .malformed else .ok (.other, rest)
    else finish n (if negative then exponent - e else exponent + e) rest

/-- Reads what may follow the digits of a number: an exponent or nothing. -/
def exponentOrEnd (n : Nat) (exponent : Int) : Reader Number := fun bytes =>
  match bytes with
  | 101 :: _ | 69 :: _ => exponentPart n exponent bytes
  | _ => finish n exponent bytes

/-- Reads a fraction, of which the point is next. -/
def fractionPart (n : Nat) (exponent : Nat) : Reader Number := fun bytes =>
  match bytes.drop 1, digits (bytes.drop 1) with
  | [], _ => .error .incomplete
  | _, ([], _) => .error .malformed
  | _, (ds, rest) =>
    let (n, left) := accumulate n ds
    exponentOrEnd n ((exponent : Int) + left - ds.length) rest

/-- Reads a number, of which a digit is next.  A zero at the front must be the only digit. -/
def number (negative : Bool) : Reader Number := fun bytes =>
  match bytes, digits bytes with
  | [], _ => .error .incomplete
  | _, ([], _) => .error .malformed
  | _, (48 :: _ :: _, _) => .error .malformed
  | _, (ds, rest) =>
    let (n, left) := accumulate 0 ds
    match rest with
    | 46 :: _ => fractionPart n left rest
    | 101 :: _ | 69 :: _ => exponentPart n left rest
    | _ =>
      if 0 < left then finish n left rest
      else .ok (if negative then .other else .natural n, rest)

/-! ## Texts -/

/-- The value of a hexadecimal digit. -/
def hexDigit? (b : UInt8) : Option Nat :=
  if isDigit b then some (digit b)
  else if 97 ≤ b && b ≤ 102 then some (b.toNat - 87)
  else if 65 ≤ b && b ≤ 70 then some (b.toNat - 55)
  else none

/-- Reads four hexadecimal digits. -/
def unit16 : Reader Nat
  | a :: b :: c :: d :: rest =>
    match hexDigit? a, hexDigit? b, hexDigit? c, hexDigit? d with
    | some a, some b, some c, some d => .ok (4096 * a + 256 * b + 16 * c + d, rest)
    | _, _, _, _ => .error .malformed
  | _ => .error .incomplete

/-- The byte that a letter after a backslash stands for. -/
def escape? (b : UInt8) : Option UInt8 :=
  if b == 34 || b == 92 || b == 47 then some b
  else if b == 98 then some 8
  else if b == 102 then some 12
  else if b == 110 then some 10
  else if b == 114 then some 13
  else if b == 116 then some 9
  else none

/-- The bytes of a character in UTF-8. -/
def charBytes (code : Nat) : List UInt8 := (String.singleton (Char.ofNat code)).toUTF8.data.toList

/-- Reads the given byte inside a text. -/
def expect (b : UInt8) : Reader Unit
  | [] => .error .incomplete
  | c :: rest => if c = b then .ok ((), rest) else .error .malformed

/-- Reads a character that is named by its units, after the mark: one unit, or two that form a
pair. -/
def named : Reader (List UInt8) := do
  let one ← unit16
  if 0xDC00 ≤ one && one ≤ 0xDFFF then throw .malformed
  else if one < 0xD800 || 0xDBFF < one then return charBytes one
  else
    expect 92
    expect 117
    let two ← unit16
    if two < 0xDC00 || 0xDFFF < two then throw .malformed
    else return charBytes ((one - 0xD800) * 1024 + (two - 0xDC00) + 0x10000)

/-- Reads what follows a backslash. -/
def escape : Reader (List UInt8)
  | [] => .error .incomplete
  | b :: rest =>
    if b = 117 then named rest
    else
      match escape? b with
      | some c => .ok ([c], rest)
      | none => .error .malformed

/-- Reads the bytes of a text up to its closing quote.  Every turn takes at least one byte. -/
def textBytes : Nat → Reader (List UInt8)
  | 0, _ => .error .incomplete
  | fuel + 1, bytes =>
    match bytes with
    | [] => .error .incomplete
    | 34 :: rest => .ok ([], rest)
    | 92 :: rest =>
      match escape rest with
      | .ok (front, rest) => (textBytes fuel rest).map fun (back, rest) => (front ++ back, rest)
      | .error e => .error e
    | b :: rest =>
      if b < 32 then .error .malformed
      else (textBytes fuel rest).map fun (back, rest) => (b :: back, rest)

/-- Reads a text, of which the opening quote has been taken. -/
def text : Reader String := fun bytes =>
  match textBytes (bytes.length + 1) bytes with
  | .ok (body, rest) =>
    match String.fromUTF8? ⟨body.toArray⟩ with
    | some s => .ok (s, rest)
    | none => .error .malformed
  | .error e => .error e

/-! ## Values of a kind -/

/-- Fails, since the next value is not of the kind that is expected. -/
def wrongKind {α : Type} : Reader α := do
  let b ← peekByte
  if b == ascii 'n' then
    word ['n', 'u', 'l', 'l']
    throw .unsuitable
  else if b == ascii 't' then
    word ['t', 'r', 'u', 'e']
    throw .unsuitable
  else if b == ascii 'f' then
    word ['f', 'a', 'l', 's', 'e']
    throw .unsuitable
  else if b == ascii '-' then
    skip
    let _ ← number true
    throw .unsuitable
  else if isDigit b then
    let _ ← number false
    throw .unsuitable
  else if b == ascii '"' then
    skip
    let _ ← text
    throw .unsuitable
  else if b == ascii '[' || b == ascii '\x7b' then throw .unsuitable
  else throw .malformed

/-- Reads a text. -/
def string : Reader String := do
  if (← peekByte) == ascii '"' then
    skip
    text
  else wrongKind

/-- Reads a natural number up to a greatest one. -/
def natural (greatest : Nat) : Reader Nat := do
  if isDigit (← peekByte) then
    match ← number false with
    | .natural n => if n ≤ greatest then return n else throw .unsuitable
    | .other => throw .unsuitable
  else wrongKind

/-- Reads a null. -/
def null : Reader Unit := do
  if (← peekByte) == ascii 'n' then word ['n', 'u', 'l', 'l'] else wrongKind

/-- Reads the colon after the name of a field. -/
def colon : Reader Unit := do
  if (← peekByte) == ascii ':' then skip else throw .malformed

end Json

end BlockLedger
