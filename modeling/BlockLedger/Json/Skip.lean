import BlockLedger.Json.Reader

/-
# Skipping values

A value that nobody asks for is passed over with as few checks as possible: its texts may hold any
bytes and name halves of pairs, and its numbers may be of any size.  Arrays and objects may be
nested to any depth, since only the list of those that are still open is kept.
-/

namespace BlockLedger

namespace Json

/-- Drops digits, of which there must be one. -/
def skipSomeDigits : Reader Unit := fun bytes =>
  match digits bytes with
  | ([], _) => .error .malformed
  | (_, rest) => .ok ((), rest)

/-- Passes over an exponent, if there is one. -/
def skipExponent : Reader Unit := fun bytes =>
  match bytes with
  | 101 :: rest | 69 :: rest =>
    match rest with
    | 43 :: rest | 45 :: rest => skipSomeDigits rest
    | rest => skipSomeDigits rest
  | bytes => .ok ((), bytes)

/-- Passes over a number, of which a digit is next. -/
def skipNumber : Reader Unit := fun bytes =>
  match digits bytes with
  | ([], _) => .error .malformed
  | (48 :: _ :: _, _) => .error .malformed
  | (_, 46 :: rest) => (do skipSomeDigits; skipExponent : Reader Unit) rest
  | (_, rest) => skipExponent rest

/-- Passes over what follows a backslash. -/
def skipEscape : Reader Unit
  | [] => .error .incomplete
  | b :: rest =>
    if b = 117 then (do let _ ← unit16 : Reader Unit) rest
    else if (escape? b).isSome then .ok ((), rest)
    else .error .malformed

/-- Passes over a text up to its closing quote.  Every turn takes at least one byte. -/
def skipTextFrom : Nat → Reader Unit
  | 0, _ => .error .incomplete
  | fuel + 1, bytes =>
    match bytes with
    | [] => .error .incomplete
    | 34 :: rest => .ok ((), rest)
    | 92 :: rest =>
      match skipEscape rest with
      | .ok (_, rest) => skipTextFrom fuel rest
      | .error e => .error e
    | b :: rest => if b < 32 then .error .malformed else skipTextFrom fuel rest

/-- Passes over a text, of which the opening quote has been taken. -/
def skipText : Reader Unit := fun bytes => skipTextFrom (bytes.length + 1) bytes

/-- What is open around a value. -/
inductive Frame where
  | array
  | object
  deriving DecidableEq, Inhabited, Repr

namespace Frame

/-- The byte that closes a frame. -/
def closer : Frame → UInt8
  | array => ascii ']'
  | object => ascii '\x7d'

end Frame

/-- Closes frames as far as they are closed, and takes the comma after a value; returns the frames
that stay open, none at the end.  `filled` tells that a value comes before. -/
def close (filled : Bool) : List Frame → Reader (List Frame)
  | [] => pure []
  | frame :: outer => do
    let b ← peekByte
    if filled && b == ascii ',' then
      skip
      return frame :: outer
    else if b == frame.closer then
      skip
      close true outer
    else if filled then throw .malformed
    else return frame :: outer

/-- Passes over the name of a field, if the innermost frame is an object. -/
def skipName : List Frame → Reader Unit
  | .object :: _ => do
    if (← peekByte) == ascii '"' then
      skip
      skipText
      colon
    else throw .malformed
  | _ => pure ()

/-- Passes over a value that is neither an array nor an object. -/
def skipLeaf (b : UInt8) : Reader Unit := do
  if b == ascii 'n' then word ['n', 'u', 'l', 'l']
  else if b == ascii 't' then word ['t', 'r', 'u', 'e']
  else if b == ascii 'f' then word ['f', 'a', 'l', 's', 'e']
  else if b == ascii '-' then
    skip
    skipNumber
  else if isDigit b then skipNumber
  else if b == ascii '"' then
    skip
    skipText
  else throw .malformed

/-- Passes over a value and whatever is open around it.  Every turn takes at least one byte. -/
def skipFrom : Nat → List Frame → Reader Unit
  | 0, _ => throw .incomplete
  | fuel + 1, frames => do
    let b ← peekByte
    let left ←
      if b == ascii '[' then
        skip
        close false (.array :: frames)
      else if b == ascii '\x7b' then
        skip
        close false (.object :: frames)
      else
        skipLeaf b
        close true frames
    if left.isEmpty then return
    skipName left
    skipFrom fuel left

/-- Passes over a value. -/
def skipValue : Reader Unit := fun bytes => skipFrom (bytes.length + 1) [] bytes

end Json

end BlockLedger
