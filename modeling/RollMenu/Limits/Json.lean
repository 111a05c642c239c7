import RollMenu.Json.Reader
import RollMenu.Limits

/-!
# Limits files

Limits as a JSON document: any of the fields by name, or the first few by position. What
is missing takes its default.
-/

namespace RollMenu.Limits

/-- The names of the fields, in order. -/
def fieldNames : List String :=
  ["command_name", "max_identifier_length", "max_placeholders", "range_cap", "list_cap",
    "default_option_count", "buttons_per_row", "max_explored_paths"]

/-- Reads a field, or takes the default. -/
def fieldOr {α : Type} (read : Json.Value → Option α) (default : α) : Option Json.Value → Option α
  | none => some default
  | some v => read v

/-- Reads limits from a JSON text. -/
def ofJson (source : String) : Option Limits := do
  let d : Limits := {}
  let word := fieldOr Json.Value.word?
  match ← (← Json.parse source).record true fieldNames with
  | [name, idLength, placeholders, range, list, choices, row, paths] =>
    return {
      commandName := ← fieldOr Json.Value.text? d.commandName name
      maxIdLength := ← word d.maxIdLength idLength
      maxPlaceholders := ← word d.maxPlaceholders placeholders
      rangeCap := ← word d.rangeCap range
      listCap := ← word d.listCap list
      defaultChoices := ← word d.defaultChoices choices
      buttonsPerRow := ← word d.buttonsPerRow row
      maxPaths := ← word d.maxPaths paths }
  | _ => none

end RollMenu.Limits
