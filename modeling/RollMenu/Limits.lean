/-!
# Limits

What the platform and the search through a template's selections can bear. All counts
are machine words; the defaults fit a grid of five rows of five buttons.
-/

namespace RollMenu

/-- Bounds of the platform and of the search. -/
structure Limits where
  /-- The command that every wire id starts with. -/
  commandName : String := "custom_parameter"
  /-- Most characters of a wire id. -/
  maxIdLength : UInt64 := 100
  /-- Most selections along one path. -/
  maxPlaceholders : UInt64 := 4
  /-- Most choices that a range expands to. -/
  rangeCap : UInt64 := 24
  /-- Most entries that are read of a list. -/
  listCap : UInt64 := 23
  /-- Choices of a placeholder without a usable spec. -/
  defaultChoices : UInt64 := 15
  /-- Buttons in a full row of a prompt. -/
  buttonsPerRow : UInt64 := 5
  /-- Most paths that the search may have to walk. -/
  maxPaths : UInt64 := 4096
  deriving DecidableEq, Repr, Inhabited

end RollMenu
