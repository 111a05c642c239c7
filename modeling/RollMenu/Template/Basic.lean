import RollMenu.Text.Blank

/-!
# Templates

A template is a roll expression with placeholders in braces, `1d20+{Bonus:1<=>5}@Attack`:
each placeholder has a name and perhaps a spec after the first colon, and text after an
`@` behind the last placeholder labels the answer. Here a template is kept in parts, a
list of slots and a tail, so that filling it in is a walk over the slots and its source
is their concatenation. Byte positions are kept only to be reported.
-/

namespace RollMenu

/-- A named gap of a template. -/
structure Placeholder where
  /-- Position among the placeholders of the template, from 0. -/
  index : Nat
  /-- Everything in the braces up to the first colon, blanks included. -/
  name : String
  /-- Everything after the first colon, if there is one. -/
  spec : Option String
  /-- Byte offset of the opening brace. -/
  start : Nat
  /-- Byte offset just past the closing brace. -/
  stop : Nat
  deriving DecidableEq, Repr

namespace Placeholder

/-- What stands between the braces. -/
def inner (p : Placeholder) : String :=
  match p.spec with
  | none => p.name
  | some spec => p.name ++ ":" ++ spec

/-- The placeholder as it is written in the template, braces included. -/
def expression (p : Placeholder) : String := "\x7b" ++ p.inner ++ "\x7d"

/-- How a prompt shows a placeholder that is still open. -/
def gap (p : Placeholder) : String := "\x7b" ++ p.name ++ "\x7d"

/-- How a prompt names the placeholder it asks for. -/
def heading (p : Placeholder) : String := "**" ++ p.name ++ "**"

end Placeholder

/-- A placeholder together with the plain text between the one before it and itself. -/
structure Slot where
  lead : String
  placeholder : Placeholder
  deriving DecidableEq, Repr

/-- A template in parts. -/
structure Template where
  slots : List Slot
  /-- The text after the last placeholder, up to the answer label. -/
  body : String
  /-- The answer label. It is never empty. -/
  label : Option String
  deriving DecidableEq, Repr

namespace Template

/-- The placeholders, left to right. -/
def placeholders (t : Template) : List Placeholder := t.slots.map Slot.placeholder

/-- The answer label as it is written, with its `@`. -/
def labelText (t : Template) : String :=
  match t.label with
  | none => ""
  | some label => "@" ++ label

/-- The slots with every placeholder replaced by what `fill` makes of it. -/
def renderSlots (fill : Placeholder → String) (slots : List Slot) : String :=
  String.join (slots.map fun slot => slot.lead ++ fill slot.placeholder)

@[simp] theorem renderSlots_nil (fill : Placeholder → String) : renderSlots fill [] = "" := by
  simp [renderSlots]

@[simp] theorem renderSlots_cons (fill : Placeholder → String) (slot : Slot) (slots : List Slot) :
    renderSlots fill (slot :: slots) =
      slot.lead ++ fill slot.placeholder ++ renderSlots fill slots := by
  simp [renderSlots]

/-- The text the template was read from. -/
def source (t : Template) : String :=
  renderSlots Placeholder.expression t.slots ++ t.body ++ t.labelText

/-- Replaces the placeholders that have a value, in order, and drops the answer label. The
others keep their text. -/
def substitute (t : Template) (values : List String) : String :=
  renderSlots (fun p => values[p.index]?.getD p.expression) t.slots ++ t.body

/-- Like `substitute`, for people: an open placeholder is shown by its name alone and the
answer label stays. -/
def display (t : Template) (values : List String) : String :=
  renderSlots (fun p => values[p.index]?.getD p.gap) t.slots ++ t.body ++ t.labelText

/-- The placeholder that the next value goes to. -/
def nextOpen (t : Template) (values : List String) : Option Placeholder :=
  t.placeholders[values.length]?

end Template

end RollMenu
