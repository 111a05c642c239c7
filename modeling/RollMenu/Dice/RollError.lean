import RollMenu.Dice.Expression

/-!
# Roll errors

Why an expression can not be read or rolled, and the bounds on what may be rolled.
-/

namespace RollMenu

namespace Dice

/-- Most dice of a pool. -/
def maxCount : Nat := 100

/-- Most sides of a die. -/
def maxSides : Nat := 1000

/-- Deepest nesting of parentheses and unary minus. -/
def maxNesting : Nat := 64

/-- Which number of a pool is out of bounds. -/
inductive PoolFlaw where
  | count
  | sides
  | keep
  deriving DecidableEq, Repr

end Dice

/-- Why an expression does not roll. -/
inductive RollError where
  /-- No expression goes on with the character at this position. -/
  | unexpectedToken (expression : String) (position : Nat) (found : Char)
  /-- The text ends where an expression has to go on. -/
  | unexpectedEnd (expression : String)
  /-- A pool has too few or too many of something. -/
  | poolOutOfBounds (pool : Dice.Pool) (flaw : Dice.PoolFlaw)
  | divisionByZero (expression : String)
  /-- A number or a result does not fit. -/
  | overflow (expression : String)
  | nestingTooDeep (expression : String)
  deriving DecidableEq, Repr

/-- The wording of a pool's flaw. -/
def Dice.PoolFlaw.reason (pool : Dice.Pool) : Dice.PoolFlaw → String
  | count => "between 1 and " ++ Dice.maxCount.repr ++ " dice can be rolled"
  | sides => "a die has between 1 and " ++ Dice.maxSides.repr ++ " sides"
  | keep => "can keep between 1 and " ++ pool.count.repr ++ " dice"

/-- The wording of a roll error. -/
def RollError.message : RollError → String
  | unexpectedToken expression position found =>
    "Unexpected '" ++ String.singleton found ++ "' at position " ++ position.repr ++ " in '"
      ++ expression ++ "'"
  | unexpectedEnd expression => "Unexpected end of expression '" ++ expression ++ "'"
  | poolOutOfBounds pool flaw =>
    "Dice '" ++ pool.text ++ "' are out of bounds: " ++ flaw.reason pool
  | divisionByZero expression => "Division by zero in '" ++ expression ++ "'"
  | overflow expression => "Arithmetic overflow in '" ++ expression ++ "'"
  | nestingTooDeep expression =>
    "Expression '" ++ expression ++ "' nests deeper than " ++ Dice.maxNesting.repr ++ " levels"

end RollMenu
