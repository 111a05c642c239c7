import RollMenu.Spec

/-!
# Menus

A menu is a template with every placeholder expanded into its choices. Selecting, drawing
buttons and searching through all selections work on menus and never look at the text of
a spec again.
-/

namespace RollMenu

/-- A placeholder and what it offers. -/
structure Parameter where
  placeholder : Placeholder
  choices : List Choice
  deriving DecidableEq, Repr

namespace Parameter

/-- The choice that puts `value` in the placeholder. -/
def choiceByValue (p : Parameter) (value : String) : Option Choice :=
  p.choices.find? fun choice => choice.value == value

/-- The choice that a click refers to: by its id, or by its value on buttons from before
choices had ids. -/
def choice (p : Parameter) (clicked : String) : Option Choice :=
  (p.choices.find? fun choice => choice.id == clicked).or (p.choiceByValue clicked)

end Parameter

/-- A template whose placeholders are expanded. -/
structure Menu where
  template : Template
  parameters : List Parameter
  limits : Limits
  deriving DecidableEq, Repr

namespace Menu

/-- Points every choice at the placeholder after number `index` of `count`, if there is one
and the choice does not end the selection. -/
def link (index count : Nat) (choices : List Choice) : List Choice :=
  choices.map fun choice =>
    { choice with
      next := if choice.direct then none else if index + 1 < count then some (index + 1) else none }

/-- Expands a placeholder out of `count`. It has to offer something. -/
def expand (formats : List SpecFormat) (limits : Limits) (count : Nat) (p : Placeholder) :
    Except ConfigError Parameter := do
  let choices ← Spec.choices formats limits p.expression p.spec
  if choices.isEmpty then .error (.noChoice p.expression)
  else .ok { placeholder := p, choices := link p.index count choices }

/-- Expands a template that has been read. -/
def ofTemplate (formats : List SpecFormat) (limits : Limits) (template : Template) :
    Except ConfigError Menu := do
  let parameters ← template.placeholders.mapM (expand formats limits template.slots.length)
  return { template, parameters, limits }

/-- Reads and expands a template with additional formats, which are tried before the
built-in ones. -/
def compileWith (formats : List SpecFormat) (limits : Limits) (source : String) :
    Except ConfigError Menu :=
  match Template.parse source with
  | .error fault => .error (.malformed fault)
  | .ok template => ofTemplate (formats ++ Spec.builtin) limits template

/-- Reads and expands a template. -/
def compile (limits : Limits) (source : String) : Except ConfigError Menu :=
  compileWith [] limits source

/-- Number of placeholders. -/
def size (m : Menu) : Nat := m.parameters.length

end Menu

end RollMenu
