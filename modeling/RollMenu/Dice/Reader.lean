import RollMenu.Dice.RollError
import RollMenu.Text.Blank
import RollMenu.Text.Decimal

/-!
# Reading dice expressions

The grammar has two strengths of binary operators over operands:

* an expression is terms joined by `+` and `-`,
* a term is operands joined by `*` and `/`,
* an operand is a number, a pool such as `2d6k1`, two apostrophes, a minus and an
  operand, or an expression in parentheses.

Blanks may stand before an operand, an operator and a closing parenthesis, and nowhere
else. A reader takes what is left of the text and hands back what it leaves, so the
only recursion on the grammar itself is the nesting, which is bounded from the start.
-/

namespace RollMenu.Dice

/-- Why reading stops short. -/
inductive Stop where
  /-- The rest does not go on as it has to. It is empty at the end of the text. -/
  | unexpected (rest : List Char)
  /-- A number is too large for its place. -/
  | tooLarge
  /-- The nesting is too deep. -/
  | tooDeep
  deriving DecidableEq, Repr

/-- Takes a value off the front of a text, or stops. -/
abbrev Reader (α : Type) := List Char → Except Stop (α × List Char)

namespace Reader

/-- The greatest number that stands alone. -/
def maxNumber : Nat := 0x7fffffffffffffff

/-- The greatest number within a pool. -/
def maxInPool : Nat := UInt32.size - 1

/-- Reads a run of at least one digit with a value up to `max`. -/
def digits (max : Nat) : Reader Nat := fun cs =>
  let run := cs.takeWhile Char.isDigit
  if run.isEmpty then .error (.unexpected cs)
  else
    let n := Nat.ofDigitChars 10 run 0
    if max < n then .error .tooLarge else .ok (n, cs.dropWhile Char.isDigit)

/-- Reads the suffix that says which dice are kept, if there is one. -/
def keep : Reader (Option Keep) := fun cs =>
  match cs with
  | 'k' :: rest | 'K' :: rest => do
    let (n, rest) ← digits maxInPool rest
    return (some (.highest n), rest)
  | 'l' :: rest | 'L' :: rest => do
    let (n, rest) ← digits maxInPool rest
    return (some (.lowest n), rest)
  | _ => .ok (none, cs)

/-- Reads the rest of a pool, whose count and `d` have been read. -/
def pool (count : Nat) : Reader Expression := fun cs => do
  let (sides, rest) ← digits maxInPool cs
  let (keep, rest) ← keep rest
  return (.pool { count, sides, keep }, rest)

/-- Reads a number, or a pool that starts with its count. -/
def numberOrPool : Reader Expression := fun cs => do
  let (n, rest) ← digits maxNumber cs
  match rest with
  | 'd' :: rest | 'D' :: rest => if maxInPool < n then .error .tooLarge else pool n rest
  | _ => .ok (.number n, rest)

/-- Reads operators and operands for as long as an operator follows. Each round takes at least
one character, so `fuel` only has to be the length of the text. -/
def chainOn (operator : Char → Option Operator) (operand : Reader Expression) :
    Nat → Expression → Reader Expression
  | 0, left => fun cs => .ok (left, Text.dropBlank cs)
  | fuel + 1, left => fun cs =>
    match Text.dropBlank cs with
    | [] => .ok (left, [])
    | c :: rest =>
      match operator c with
      | none => .ok (left, c :: rest)
      | some op => do
        let (right, rest) ← operand rest
        chainOn operator operand fuel (.binary op left right) rest

/-- Reads operands joined by operators, from the left, and the blanks behind the last one. -/
def chain (operator : Char → Option Operator) (operand : Reader Expression) : Reader Expression :=
  fun cs => do
    let (first, rest) ← operand cs
    chainOn operator operand rest.length first rest

/-- The operators that join terms. -/
def sumOperator : Char → Option Operator
  | '+' => some .plus
  | '-' => some .minus
  | _ => none

/-- The operators that join operands. -/
def productOperator : Char → Option Operator
  | '*' => some .times
  | '/' => some .divide
  | _ => none

/-- Reads an expression out of operands. -/
def expressionOf (operand : Reader Expression) : Reader Expression :=
  chain sumOperator (chain productOperator operand)

/-- Reads an operand. What stands behind a minus or in parentheses is read by `inner`, if the
nesting may still grow. -/
def operandOver (inner : Option (Reader Expression)) : Reader Expression := fun cs =>
  match Text.dropBlank cs with
  | '-' :: rest =>
    match inner with
    | none => .error .tooDeep
    | some inner => do
      let (e, rest) ← inner rest
      return (.negate e, rest)
  | '(' :: rest =>
    match inner with
    | none => .error .tooDeep
    | some inner => do
      let (e, rest) ← expressionOf inner rest
      match Text.dropBlank rest with
      | ')' :: rest => return (e, rest)
      | rest => .error (.unexpected rest)
  | '\'' :: rest =>
    match rest with
    | '\'' :: rest => .ok (.empty, rest)
    | _ => .error (.unexpected rest)
  | 'd' :: rest | 'D' :: rest => pool 1 rest
  | rest => numberOrPool rest

/-- Reads an operand that nests at most `levels` deep. -/
def operand : Nat → Reader Expression
  | 0 => operandOver none
  | levels + 1 => operandOver (some (operand levels))

/-- Reads an expression that is the whole text. -/
def whole (levels : Nat) (cs : List Char) : Except Stop Expression := do
  let (e, rest) ← expressionOf (operand levels) cs
  match Text.dropBlank rest with
  | [] => return e
  | rest => .error (.unexpected rest)

end Reader

/-- Says of a stop where in the source it happened. -/
def Stop.error (source : String) : Stop → RollError
  | unexpected [] => .unexpectedEnd source
  | unexpected (c :: rest) => .unexpectedToken source (source.length - (rest.length + 1)) c
  | tooLarge => .overflow source
  | tooDeep => .nestingTooDeep source

/-- Reads a roll expression. -/
def parse (source : String) : Except RollError Expression :=
  (Reader.whole maxNesting source.toList).mapError (Stop.error source)

end RollMenu.Dice
