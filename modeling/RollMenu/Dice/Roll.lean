import RollMenu.Dice.Check
import RollMenu.Dice.Faces
import RollMenu.Text.Decimal

/-!
# Rolling

An expression is rolled from left to right in signed 64-bit arithmetic, whose every step
is checked. Each pool leaves a line that shows all its faces in the order in which they
fell, the dropped ones between tildes.
-/

namespace RollMenu

/-- What a roll came to. -/
structure RollResult where
  total : Int
  /-- The expression, every die and the total, for people. -/
  details : String
  deriving DecidableEq, Repr

namespace Dice

/-- What rolling needs and leaves behind. -/
structure Tray (σ : Type) where
  /-- The random source. -/
  source : σ
  /-- The lines of the pools rolled so far. -/
  lines : List String := []

/-- A computation that rolls dice. The tray is kept also when it fails. -/
abbrev Rolling (σ α : Type) := Tray σ → Except RollError α × Tray σ

/-- Draws the faces of so many equal dice. -/
def drawFaces {σ : Type} (face : FaceSource σ) (sides : Nat) : Nat → σ → List Nat × σ
  | 0, s => ([], s)
  | count + 1, s =>
    let (first, s) := face sides s
    let (rest, s) := drawFaces face sides count s
    (first :: rest, s)

namespace Keep

/-- Whether die `a` may stand before die `b` when dice are sorted, each given by face and
place. Only the faces matter. -/
def ahead : Keep → Nat × Nat → Nat × Nat → Bool
  | highest _, a, b => b.1 ≤ a.1
  | lowest _, a, b => a.1 ≤ b.1

end Keep

/-- The dice that count, each with its face and its place, as they fell. The best faces are
found by a stable sort, so of equal faces the earlier ones are kept. Then the kept dice are
sorted back into the order of their places. -/
def keptDice (keep : Option Keep) (faces : List Nat) : List (Nat × Nat) :=
  match keep with
  | none => faces.zipIdx
  | some keep =>
    let best := (faces.zipIdx.mergeSort keep.ahead).take keep.count
    best.mergeSort fun a b => a.2 ≤ b.2

namespace Pool

/-- The total of a pool whose dice show these faces. -/
def total (p : Pool) (faces : List Nat) : Nat :=
  (keptDice p.keep faces).foldr (fun die n => die.1 + n) 0

/-- The line of a pool whose dice show these faces. A die is looked up among the kept ones
with its place, for another one may show the same face. -/
def line (p : Pool) (faces : List Nat) : String :=
  let kept := keptDice p.keep faces
  let shown := faces.zipIdx.map fun die =>
    if die ∈ kept then die.1.repr else "~" ++ die.1.repr ++ "~"
  p.text ++ " [" ++ ", ".intercalate shown ++ "]"

/-- Rolls a pool, if it is within bounds. -/
def roll {σ : Type} (face : FaceSource σ) (p : Pool) : Rolling σ Int := fun tray =>
  match p.check with
  | .error e => (.error e, tray)
  | .ok () =>
    let (faces, source) := drawFaces face p.sides p.count tray.source
    (.ok (p.total faces), { source, lines := tray.lines ++ [p.line faces] })

end Pool

namespace Operator

/-- The exact result of an operator. Quotients are cut off towards zero. -/
def exact : Operator → Int → Int → Int
  | plus, a, b => a + b
  | minus, a, b => a - b
  | times, a, b => a * b
  | divide, a, b => a.tdiv b

/-- The result of an operator within an expression, if there is one and it fits. -/
def apply (source : String) (op : Operator) (a b : Int) : Except RollError Int :=
  if op = .divide ∧ b = 0 then .error (.divisionByZero source)
  else match Decimal.checked (op.exact a b) with
    | some result => .ok result
    | none => .error (.overflow source)

end Operator

namespace Expression

/-- Rolls an expression. Errors of the arithmetic name the `source` that it was read from. -/
def roll {σ : Type} (face : FaceSource σ) (source : String) : Expression → Rolling σ Int
  | number n => fun tray => (.ok n, tray)
  | empty => fun tray => (.ok 0, tray)
  | pool p => p.roll face
  | negate e => fun tray =>
    match e.roll face source tray with
    | (.error error, tray) => (.error error, tray)
    | (.ok value, tray) =>
      match Decimal.checked (-value) with
      | some result => (.ok result, tray)
      | none => (.error (.overflow source), tray)
  | binary op left right => fun tray =>
    match left.roll face source tray with
    | (.error error, tray) => (.error error, tray)
    | (.ok a, tray) =>
      match right.roll face source tray with
      | (.error error, tray) => (.error error, tray)
      | (.ok b, tray) => (op.apply source a b, tray)

/-- The breakdown of a roll. -/
def details (e : Expression) (lines : List String) (total : Int) : String :=
  if lines.isEmpty then e.text ++ " = " ++ Decimal.ofInt total
  else e.text ++ ": " ++ "; ".intercalate lines ++ " = " ++ Decimal.ofInt total

/-- Rolls an expression with a random source and describes what came of it. -/
def result {σ : Type} (face : FaceSource σ) (source : String) (e : Expression) (s : σ) :
    Except RollError RollResult × σ :=
  match e.roll face source { source := s } with
  | (.error error, tray) => (.error error, tray.source)
  | (.ok total, tray) => (.ok { total, details := e.details tray.lines total }, tray.source)

end Expression

end Dice

end RollMenu
