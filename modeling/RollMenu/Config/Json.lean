import RollMenu.Config
import RollMenu.Json.Reader
import RollMenu.Json.Writer
import RollMenu.Text.Decimal

/-!
# Configurations as JSON

A configuration is an object with its fields in a fixed order. Only the answer target
and the colour may be missing or null.
-/

namespace RollMenu

open Json

namespace DisplayStyle

/-- The names of the fields, in order. -/
def fieldNames : List String := ["image", "color"]

/-- Reads a style. -/
def ofValue (v : Value) : Option DisplayStyle := do
  match ← v.record false fieldNames with
  | [image, color] =>
    return {
      image := ← Value.oneOf DiceImage.all DiceImage.text (← image)
      color := ← Value.optional Value.text? (color.getD .null) }
  | _ => none

/-- Writes a style. -/
def toJson (s : DisplayStyle) : String :=
  writeObject (fieldNames.zip [writeText s.image.text, writeOptional writeText s.color])

end DisplayStyle

namespace Config

/-- The names of the fields, in order. -/
def fieldNames : List String :=
  ["template", "answer_target", "locale", "roll_engine", "answer_format", "display_style"]

/-- Reads a configuration from a JSON text. -/
def ofJson (source : String) : Option Config := do
  match ← (← Json.parse source).record false fieldNames with
  | [template, target, locale, engine, format, style] =>
    return {
      template := ← (← template).text?
      answerTarget := ← Value.optional Value.word? (target.getD .null)
      locale := ← (← locale).text?
      engine := ← Value.oneOf EngineName.all EngineName.text (← engine)
      answerFormat := ← Value.oneOf AnswerFormat.all AnswerFormat.text (← format)
      displayStyle := ← DisplayStyle.ofValue (← style) }
  | _ => none

/-- Writes a configuration as a JSON text without blanks. -/
def toJson (c : Config) : String :=
  writeObject (fieldNames.zip
    [writeText c.template, writeOptional Decimal.ofWord c.answerTarget, writeText c.locale,
      writeText c.engine.text, writeText c.answerFormat.text, c.displayStyle.toJson])

end Config

end RollMenu
