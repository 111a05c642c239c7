import RollMenu.Dice.RollError

/-!
# Checking expressions

What can be said of an expression before it is rolled: whether its pools are within
bounds and whether it divides by something that is plainly zero.
-/

namespace RollMenu.Dice

namespace Pool

/-- The first number of a pool that is out of bounds. -/
def flaw? (p : Pool) : Option PoolFlaw :=
  if p.count = 0 ∨ maxCount < p.count then some .count
  else if p.sides = 0 ∨ maxSides < p.sides then some .sides
  else match p.keep with
    | none => none
    | some keep => if keep.count = 0 ∨ p.count < keep.count then some .keep else none

/-- Whether a pool can be rolled. -/
def check (p : Pool) : Except RollError Unit :=
  match p.flaw? with
  | none => .ok ()
  | some flaw => .error (.poolOutOfBounds p flaw)

end Pool

namespace Expression

/-- Whether an expression is zero, or nothing, behind any number of minus signs. -/
def isLiteralZero : Expression → Bool
  | number n => n == 0
  | empty => true
  | negate e => e.isLiteralZero
  | pool _ | binary _ _ _ => false

/-- The first problem of an expression, from the left. A division by a literal zero is found
before anything in its operands. -/
def check : Expression → Except RollError Unit
  | number _ | empty => .ok ()
  | pool p => p.check
  | negate e => e.check
  | binary op left right => do
    if op = .divide ∧ right.isLiteralZero then
      .error (.divisionByZero (binary op left right).text)
    left.check
    right.check

end Expression

end RollMenu.Dice
