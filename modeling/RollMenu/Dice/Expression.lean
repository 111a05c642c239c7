/-!
# Dice expressions

The trees that roll expressions are read into, and how they are written again: with one
blank around an operator and parentheses only where the tree needs them. Operators of
one strength associate to the left, so it is the right operand that is put in
parentheses when the strengths are equal.
-/

namespace RollMenu.Dice

/-- Which dice of a pool count. -/
inductive Keep where
  | highest (n : Nat)
  | lowest (n : Nat)
  deriving DecidableEq, Repr

/-- A handful of equal dice. -/
structure Pool where
  count : Nat
  sides : Nat
  keep : Option Keep
  deriving DecidableEq, Repr

/-- The binary operators. -/
inductive Operator where
  | plus
  | minus
  | times
  | divide
  deriving DecidableEq, Repr

/-- A roll expression. -/
inductive Expression where
  | number (n : Nat)
  /-- Two apostrophes, which stand for a skipped placeholder and count as zero. -/
  | empty
  | pool (p : Pool)
  | negate (e : Expression)
  | binary (op : Operator) (left right : Expression)
  deriving DecidableEq, Repr

namespace Operator

/-- The operator's sign. -/
def symbol : Operator → Char
  | plus => '+'
  | minus => '-'
  | times => '*'
  | divide => '/'

/-- How strongly an operator binds its operands. -/
def strength : Operator → Nat
  | plus | minus => 1
  | times | divide => 2

end Operator

namespace Keep

/-- Number of dice that count. -/
def count : Keep → Nat
  | highest n | lowest n => n

/-- The suffix of a pool. -/
def write : Keep → List Char
  | highest n => 'k' :: Nat.toDigits 10 n
  | lowest n => 'l' :: Nat.toDigits 10 n

end Keep

namespace Pool

/-- The notation of a pool. The count is always written. -/
def write (p : Pool) : List Char :=
  Nat.toDigits 10 p.count ++ 'd' :: (Nat.toDigits 10 p.sides ++ (p.keep.map Keep.write).getD [])

/-- The notation of a pool, as a text. -/
def text (p : Pool) : String := String.ofList p.write

end Pool

namespace Expression

/-- How strongly an expression holds together. -/
def strength : Expression → Nat
  | binary op _ _ => op.strength
  | negate _ => 3
  | number _ | empty | pool _ => 4

/-- Puts a text in parentheses where they are needed. -/
def inParentheses (needed : Bool) (cs : List Char) : List Char :=
  if needed then '(' :: (cs ++ [')']) else cs

/-- Writes an expression with no more parentheses than it needs. -/
def write : Expression → List Char
  | number n => Nat.toDigits 10 n
  | empty => ['\'', '\'']
  | pool p => p.write
  | negate e => '-' :: inParentheses (e.strength < 3) e.write
  | binary op left right =>
    inParentheses (left.strength < op.strength) left.write
      ++ ' ' :: op.symbol :: ' ' :: inParentheses (right.strength ≤ op.strength) right.write

/-- The written expression, as a text. -/
def text (e : Expression) : String := String.ofList e.write

end Expression

end RollMenu.Dice
