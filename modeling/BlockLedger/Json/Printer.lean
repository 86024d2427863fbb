import BlockLedger.Number.Decimal

/-
# Writing JSON

Documents are written in one of two layouts: without any blanks, or with every element on a line
of its own.  Doubles are written in the fewest digits that read back, always with a point or an
exponent; those that are no numbers are written as null.
-/

namespace BlockLedger

namespace Json

/-- A document. -/
inductive Value where
  | null
  | bool (b : Bool)
  | natural (n : Nat)
  | double (x : Float)
  | text (s : String)
  | array (elements : List Value)
  | object (fields : List (String × Value))

namespace Value

/-- A value, or null. -/
def ofOption {α : Type} (f : α → Value) : Option α → Value
  | some a => f a
  | none => null

end Value

/-- The hexadecimal digit of a number below 16. -/
def hexDigit (n : Nat) : Char := (Nat.toDigits 16 n).headD '0'

/-- A character inside a text. -/
def charText (c : Char) : String :=
  if c = '"' then "\\\""
  else if c = '\\' then "\\\\"
  else if c = '\n' then "\\n"
  else if c = '\r' then "\\r"
  else if c = '\t' then "\\t"
  else if c.toNat = 8 then "\\b"
  else if c.toNat = 12 then "\\f"
  else if c.toNat < 32 then
    "\\u00" ++ String.ofList [hexDigit (c.toNat / 16), hexDigit (c.toNat % 16)]
  else String.singleton c

/-- A text in quotes. -/
def quoted (s : String) : String := "\"" ++ String.join (s.toList.map charText) ++ "\""

/-- A positive decimal: positional if the point falls within the first 16 digits or at most four
zeros after it, and otherwise with an exponent, which always has a sign. -/
def decimalText (d : Decimal) : String :=
  let ds := Decimal.natText d.digits
  let point := (ds.length : Int) + d.exponent
  if 0 ≤ d.exponent && point ≤ 16 then d.positional ++ ".0"
  else if -5 < point && point ≤ 16 then d.positional
  else
    let rest := (ds.drop 1).toString
    (ds.take 1).toString ++ (if rest.isEmpty then "" else "." ++ rest)
      ++ (if 0 < point then "e+" else "e") ++ toString (point - 1)

/-- A double, or null if it is no number. -/
def doubleText (x : Float) : String :=
  match Binary64.ofFloat? x with
  | none => "null"
  | some b =>
    (if b.negative then "-" else "")
      ++ if b.significand = 0 then "0.0" else decimalText (Decimal.shortest b)

/-- How a document is laid out. -/
inductive Layout where
  /-- Without any blanks. -/
  | compact
  /-- Every element on a line of its own, two blanks further in than what it belongs to. -/
  | indented
  deriving DecidableEq, Inhabited, Repr

namespace Layout

/-- What comes before an element at a depth, or before the end of what encloses it. -/
def newline (l : Layout) (depth : Nat) : String :=
  match l with
  | compact => ""
  | indented => "\n" ++ String.ofList (List.replicate (2 * depth) ' ')

/-- What stands between the name and the value of a field. -/
def colon : Layout → String
  | compact => ":"
  | indented => ": "

/-- Elements that have been written already, between two brackets. -/
def enclose (l : Layout) (depth : Nat) (opener closer : String) (elements : List String) :
    String :=
  if elements.isEmpty then opener ++ closer
  else
    opener ++ ",".intercalate (elements.map fun e => l.newline (depth + 1) ++ e)
      ++ l.newline depth ++ closer

end Layout

mutual

/-- The text of a document that stands at a depth. -/
def render (l : Layout) (depth : Nat) : Value → String
  | .null => "null"
  | .bool b => if b then "true" else "false"
  | .natural n => toString n
  | .double x => doubleText x
  | .text s => quoted s
  | .array elements => l.enclose depth "[" "]" (renderAll l (depth + 1) elements)
  | .object fields => l.enclose depth "\x7b" "\x7d" (renderFields l (depth + 1) fields)

/-- The texts of the elements of an array. -/
def renderAll (l : Layout) (depth : Nat) : List Value → List String
  | [] => []
  | v :: rest => render l depth v :: renderAll l depth rest

/-- The texts of the fields of an object. -/
def renderFields (l : Layout) (depth : Nat) : List (String × Value) → List String
  | [] => []
  | (name, v) :: rest =>
    (quoted name ++ l.colon ++ render l depth v) :: renderFields l depth rest

end

end Json

end BlockLedger
