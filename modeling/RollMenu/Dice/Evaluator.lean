import RollMenu.Dice.Cache
import RollMenu.Dice.Reader
import RollMenu.Dice.Roll

/-!
# The dice evaluator

Checks and rolls expressions given as text. Reading goes through a cache of recent
expressions, each with the number of the reading that it came from, so that one can tell
a stored tree from a fresh one. Texts that do not read are not stored.
-/

namespace RollMenu.Dice

/-- An expression and the number of the reading it came from. -/
structure Parsed where
  serial : Nat
  expression : Expression
  deriving DecidableEq, Repr

/-- The evaluator's memory. -/
structure Evaluator where
  cache : Cache Parsed
  /-- Number of texts that were read so far. -/
  readings : Nat := 0
  deriving Repr

/-- The capacity of a cache that nobody chose. -/
def defaultCapacity : Nat := 256

namespace Evaluator

/-- An evaluator that has seen nothing. -/
def empty (capacity : Nat) : Evaluator := { cache := { capacity } }

/-- The expression of a text, from the cache or read and stored. -/
def get (ev : Evaluator) (source : String) : Except RollError Parsed × Evaluator :=
  match ev.cache.touch source with
  | some (parsed, cache) => (.ok parsed, { ev with cache })
  | none =>
    match parse source with
    | .error e => (.error e, ev)
    | .ok expression =>
      let parsed : Parsed := { serial := ev.readings, expression }
      (.ok parsed, { cache := ev.cache.push source parsed, readings := ev.readings + 1 })

/-- The problem of an expression, if it has one that shows without rolling. -/
def complaint (ev : Evaluator) (source : String) : Option String × Evaluator :=
  match ev.get source with
  | (.error e, ev) => (some e.message, ev)
  | (.ok parsed, ev) =>
    match parsed.expression.check with
    | .error e => (some e.message, ev)
    | .ok () => (none, ev)

/-- Rolls an expression with a random source. -/
def roll {σ : Type} (ev : Evaluator) (face : FaceSource σ) (source : String) (s : σ) :
    (Except RollError RollResult × σ) × Evaluator :=
  match ev.get source with
  | (.error e, ev) => ((.error e, s), ev)
  | (.ok parsed, ev) => (parsed.expression.result face source s, ev)

end Evaluator

/-! ## Without a cache -/

/-- The problem of an expression, if it has one that shows without rolling. -/
def complaint (source : String) : Option String :=
  match parse source with
  | .error e => some e.message
  | .ok expression =>
    match expression.check with
    | .error e => some e.message
    | .ok () => none

/-- Reads and rolls an expression with a random source. -/
def roll {σ : Type} (face : FaceSource σ) (source : String) (s : σ) :
    Except RollError RollResult × σ :=
  match parse source with
  | .error e => (.error e, s)
  | .ok expression => expression.result face source s

end RollMenu.Dice
