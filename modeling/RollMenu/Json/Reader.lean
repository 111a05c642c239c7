import RollMenu.Json.Value

/-!
# Reading JSON

A strict reader: no comments, no commas too many, no leading zeros, no raw control
characters in texts, and nothing but blanks around the document.
-/

namespace RollMenu.Json

namespace Reader

/-- Drops the blanks that may stand between tokens. -/
def skip (cs : List Char) : List Char :=
  cs.dropWhile fun c => c == ' ' || c == '\n' || c == '\t' || c == '\r'

/-- The value of a hexadecimal digit. -/
def hexDigit? (c : Char) : Option Nat :=
  if c.isDigit then some (c.toNat - '0'.toNat)
  else if 'a' ≤ c ∧ c ≤ 'f' then some (c.toNat - 'a'.toNat + 10)
  else if 'A' ≤ c ∧ c ≤ 'F' then some (c.toNat - 'A'.toNat + 10)
  else none

/-- The value of four hexadecimal digits. -/
def hexUnit? (a b c d : Char) : Option Nat := do
  return (((← hexDigit? a) * 16 + (← hexDigit? b)) * 16 + (← hexDigit? c)) * 16 + (← hexDigit? d)

/-- The character that a letter stands for behind a backslash. -/
def escape? : Char → Option Char
  | '"' => some '"'
  | '\\' => some '\\'
  | '/' => some '/'
  | 'b' => some '\x08'
  | 'f' => some '\x0c'
  | 'n' => some '\n'
  | 'r' => some '\r'
  | 't' => some '\t'
  | _ => none

/-- Reads the code units of a text up to its closing quote. A character stands for its code
point and an escape for the unit it spells. -/
def units : List Char → Option (List Nat × List Char)
  | '"' :: rest => some ([], rest)
  | '\\' :: 'u' :: a :: b :: c :: d :: rest => do
    let unit ← hexUnit? a b c d
    let (more, rest) ← units rest
    return (unit :: more, rest)
  | '\\' :: e :: rest => do
    let c ← escape? e
    let (more, rest) ← units rest
    return (c.toNat :: more, rest)
  | c :: rest =>
    if c.toNat < 0x20 then none
    else do
      let (more, rest) ← units rest
      return (c.toNat :: more, rest)
  | [] => none

/-- Joins surrogate pairs. Half a pair makes no text. -/
def joinPairs : List Nat → Option (List Char)
  | [] => some []
  | [unit] =>
    if 0xD800 ≤ unit ∧ unit < 0xE000 then none else some [Char.ofNat unit]
  | unit :: next :: rest =>
    if 0xD800 ≤ unit ∧ unit < 0xDC00 then
      if 0xDC00 ≤ next ∧ next < 0xE000 then
        (joinPairs rest).map
          (Char.ofNat (0x10000 + (unit - 0xD800) * 0x400 + (next - 0xDC00)) :: ·)
      else none
    else if 0xDC00 ≤ unit ∧ unit < 0xE000 then none
    else (joinPairs (next :: rest)).map (Char.ofNat unit :: ·)

/-- Reads a text behind its opening quote. -/
def text (cs : List Char) : Option (Option String × List Char) := do
  let (units, rest) ← units cs
  return ((joinPairs units).map String.ofList, rest)

/-- Drops a run of at least one digit. -/
def dropDigits (cs : List Char) : Option (List Char) :=
  match cs with
  | c :: rest => if c.isDigit then some (rest.dropWhile Char.isDigit) else none
  | [] => none

/-- Drops the exponent of a number, if there is one. -/
def dropExponent (cs : List Char) : Option (List Char) :=
  match cs with
  | 'e' :: sign :: rest | 'E' :: sign :: rest =>
    if sign == '+' || sign == '-' then dropDigits rest else dropDigits (sign :: rest)
  | 'e' :: [] | 'E' :: [] => none
  | _ => some cs

/-- Drops the fraction and the exponent of a number, and tells whether it has any. -/
def dropFraction (cs : List Char) : Option (Bool × List Char) :=
  match cs with
  | '.' :: rest => do return (true, ← dropExponent (← dropDigits rest))
  | 'e' :: _ | 'E' :: _ => do return (true, ← dropExponent cs)
  | _ => some (false, cs)

/-- Reads the digits before the point. A zero stands alone. -/
def integerPart (cs : List Char) : Option (Nat × List Char) :=
  match cs with
  | '0' :: rest => some (0, rest)
  | c :: _ =>
    if c.isDigit then
      some (Nat.ofDigitChars 10 (cs.takeWhile Char.isDigit) 0, cs.dropWhile Char.isDigit)
    else none
  | [] => none

/-- Reads a number. -/
def number (cs : List Char) : Option (Value × List Char) :=
  match cs with
  | '-' :: rest => do
    let (_, rest) ← integerPart rest
    let (_, rest) ← dropFraction rest
    return (.otherNumber, rest)
  | _ => do
    let (n, rest) ← integerPart cs
    let (fractional, rest) ← dropFraction rest
    return (if fractional then .otherNumber else .natural n, rest)

mutual

/-- Reads a value. The fuel bounds the calls that lead to any one place of the text. -/
def value : Nat → List Char → Option (Value × List Char)
  | 0, _ => none
  | fuel + 1, cs =>
    match skip cs with
    | 'n' :: 'u' :: 'l' :: 'l' :: rest => some (.null, rest)
    | 't' :: 'r' :: 'u' :: 'e' :: rest => some (.bool true, rest)
    | 'f' :: 'a' :: 'l' :: 's' :: 'e' :: rest => some (.bool false, rest)
    | '"' :: rest => do
      let (s, rest) ← text rest
      return (.text s, rest)
    | '[' :: rest =>
      match skip rest with
      | ']' :: rest => some (.array [], rest)
      | rest => do
        let (items, rest) ← items fuel rest
        return (.array items, rest)
    | '\x7b' :: rest =>
      match skip rest with
      | '\x7d' :: rest => some (.object [], rest)
      | rest => do
        let (fields, rest) ← fields fuel rest
        return (.object fields, rest)
    | rest => number rest

/-- Reads the items of an array up to its closing bracket. -/
def items : Nat → List Char → Option (List Value × List Char)
  | 0, _ => none
  | fuel + 1, cs => do
    let (first, rest) ← value fuel cs
    match skip rest with
    | ']' :: rest => return ([first], rest)
    | ',' :: rest => do
      let (more, rest) ← items fuel rest
      return (first :: more, rest)
    | _ => none

/-- Reads the fields of an object up to its closing brace. -/
def fields : Nat → List Char → Option (List (Option String × Value) × List Char)
  | 0, _ => none
  | fuel + 1, cs =>
    match skip cs with
    | '"' :: rest => do
      let (name, rest) ← text rest
      match skip rest with
      | ':' :: rest => do
        let (v, rest) ← value fuel rest
        match skip rest with
        | '\x7d' :: rest => return ([(name, v)], rest)
        | ',' :: rest => do
          let (more, rest) ← fields fuel rest
          return ((name, v) :: more, rest)
        | _ => none
      | _ => none
    | _ => none

end

end Reader

/-- Reads a document. Every character is passed by at most two calls. -/
def parse (source : String) : Option Value := do
  let cs := source.toList
  let (v, rest) ← Reader.value (2 * cs.length + 2) cs
  if (Reader.skip rest).isEmpty then some v else none

end RollMenu.Json
