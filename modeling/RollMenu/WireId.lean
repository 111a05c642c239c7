import RollMenu.Text.Decimal

/-!
# Wire ids

The id of a button carries everything that a click on it needs: the command, the values
selected so far, where the answer goes, and what this button selects. The fields are
joined by one separator and the selections inside their field by another, so an id
reads back as it was as long as no part contains a separator. Ids from before answers
could be routed lack the target field and stay readable.
-/

namespace RollMenu

/-- Separates the fields of a wire id. -/
def fieldSeparator : Char := '\x1e'

/-- Separates the selections inside their field. -/
def selectionSeparator : Char := '\t'

/-- The fields of a wire id, in the order in which they are written. -/
structure WireId where
  command : String
  selections : List String
  target : Option UInt64
  click : String
  deriving DecidableEq, Repr

/-- Why a wire id can not be taken. -/
inductive WireError where
  /-- The number of fields is that of no layout. -/
  | fieldCount (wire : String) (found : Nat)
  /-- The target field is no number. -/
  | invalidTarget (field : String)
  /-- The id belongs to another command. -/
  | commandMismatch (expected found : String)
  deriving DecidableEq, Repr

/-- The wording of a wire id's error. -/
def WireError.message : WireError → String
  | fieldCount wire found =>
    "Button id '" ++ wire ++ "' has " ++ found.repr ++ " fields, expected 3 or 4"
  | invalidTarget field => "Button id routing target '" ++ field ++ "' is not a numeric id"
  | commandMismatch expected found =>
    "Button id belongs to command '" ++ found ++ "', expected '" ++ expected ++ "'"

namespace WireId

/-- The layouts that ids have been written in. -/
inductive Layout where
  /-- Command, selections, target and click. -/
  | current
  /-- Command, selections and click, without a target. -/
  | legacy
  deriving DecidableEq, Repr

/-- Number of fields of a layout. -/
def Layout.fieldCount : Layout → Nat
  | current => 4
  | legacy => 3

/-- The target field. No target is written as nothing. -/
def targetField : Option UInt64 → String
  | none => ""
  | some target => Decimal.ofWord target

/-- Writes an id in the current layout. -/
def encode (id : WireId) : String :=
  (String.singleton fieldSeparator).intercalate
    [id.command, (String.singleton selectionSeparator).intercalate id.selections,
      targetField id.target, id.click]

/-- Splits a text at every occurrence of a separator. -/
def splitAt (separator : Char) (text : String) : List String :=
  (text.toList.splitOn separator).map String.ofList

/-- Reads the selections field. An empty field holds no selection. -/
def readSelections (field : String) : List String :=
  if field.isEmpty then [] else splitAt selectionSeparator field

/-- Reads the target field. -/
def readTarget (field : String) : Except WireError (Option UInt64) :=
  if field.isEmpty then .ok none
  else match Decimal.word? field.toList with
    | some target => .ok (some target)
    | none => .error (.invalidTarget field)

/-- Reads an id and tells in which layout it was written. -/
def decodeLayout (wire : String) : Except WireError (Layout × WireId) :=
  match splitAt fieldSeparator wire with
  | [command, selections, target, click] => do
    let target ← readTarget target
    return (.current, ⟨command, readSelections selections, target, click⟩)
  | [command, selections, click] =>
    .ok (.legacy, ⟨command, readSelections selections, none, click⟩)
  | fields => .error (.fieldCount wire fields.length)

/-- Reads an id. -/
def decode (wire : String) : Except WireError WireId :=
  (decodeLayout wire).map Prod.snd

end WireId

end RollMenu
