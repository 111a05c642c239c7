/-!
# Configurations

What someone sets up once for a message with buttons: the template, and how and where
its rolls are answered. A configuration never changes after it is stored.
-/

namespace RollMenu

/-- The name under which a roll engine is registered. -/
inductive EngineName where
  | standard
  | legacy
  deriving DecidableEq, Repr, Inhabited

/-- How much of a roll the answer shows. -/
inductive AnswerFormat where
  /-- Expression, label and every die. -/
  | full
  | withoutExpression
  | compact
  | minimal
  deriving DecidableEq, Repr, Inhabited

/-- The pictures an answer is decorated with. -/
inductive DiceImage where
  | none
  | polyhedral3d
  | polyhedralAlies
  | fate
  deriving DecidableEq, Repr, Inhabited

/-- How an answer is decorated. -/
structure DisplayStyle where
  image : DiceImage := .polyhedral3d
  color : Option String := none
  deriving DecidableEq, Repr, Inhabited

/-- The set-up of one message. -/
structure Config where
  template : String
  /-- The channel that answers go to, in place of the message's own. -/
  answerTarget : Option UInt64 := none
  locale : String := "en"
  engine : EngineName := .standard
  answerFormat : AnswerFormat := .withoutExpression
  displayStyle : DisplayStyle := {}
  deriving DecidableEq, Repr, Inhabited

namespace EngineName

/-- Every engine name, in the order in which files number them. -/
def all : List EngineName := [standard, legacy]

/-- The written name. -/
def text : EngineName → String
  | standard => "Standard"
  | legacy => "Legacy"

end EngineName

namespace AnswerFormat

/-- Every answer format, in the order in which files number them. -/
def all : List AnswerFormat := [full, withoutExpression, compact, minimal]

/-- The written name. -/
def text : AnswerFormat → String
  | full => "Full"
  | withoutExpression => "WithoutExpression"
  | compact => "Compact"
  | minimal => "Minimal"

end AnswerFormat

namespace DiceImage

/-- Every image set, in the order in which files number them. -/
def all : List DiceImage := [none, polyhedral3d, polyhedralAlies, fate]

/-- The written name. -/
def text : DiceImage → String
  | none => "None"
  | polyhedral3d => "Polyhedral3d"
  | polyhedralAlies => "PolyhedralAlies"
  | fate => "Fate"

end DiceImage

end RollMenu
