import RollMenu.Config
import RollMenu.Refusal
import RollMenu.Template.Reader

/-!
# Configuration errors

Why a configuration is not accepted. Everything here is found before anything is stored
or shown.
-/

namespace RollMenu

/-- What a configuration can be turned down for. -/
inductive ConfigError where
  /-- The text of the template is malformed. -/
  | malformed (fault : Template.Fault)
  /-- The search could not take a choice of the placeholder that starts at `position`. -/
  | refusedChoice (position : Nat) (refusal : Refusal)
  /-- A placeholder offers no choice. -/
  | noChoice (placeholder : String)
  /-- A placeholder offers one value twice. -/
  | duplicateValue (placeholder value : String)
  /-- A button would need an id that is longer than the platform takes. -/
  | idTooLong (wire : String) (length limit : Nat)
  /-- A path needs more selections than allowed. -/
  | tooManyPlaceholders (max : Nat)
  /-- The engine does not take the expression at the end of a path. -/
  | expressionInvalid (expression message : String)
  /-- The search would have too many paths to walk. -/
  | tooManyPaths (paths limit : Nat)
  /-- The engine that the configuration names is not there. -/
  | unknownEngine (name : EngineName)
  deriving DecidableEq, Repr

/-- The wording of what is wrong at a byte of the template. -/
def ConfigError.malformedAt (position : Nat) (reason : String) : String :=
  "Template is malformed at position " ++ position.repr ++ ": " ++ reason

/-- The wording of a configuration error. -/
def ConfigError.message : ConfigError → String
  | malformed ⟨position, flaw⟩ => malformedAt position flaw.reason
  | refusedChoice position refusal => malformedAt position refusal.message
  | noChoice placeholder =>
    "Placeholder '" ++ placeholder ++ "' does not offer a single option"
  | duplicateValue placeholder value =>
    "Placeholder '" ++ placeholder ++ "' offers the value '" ++ value ++ "' more than once"
  | idTooLong wire length limit =>
    "Button id '" ++ wire ++ "' is " ++ length.repr ++ " characters long, "
      ++ (length - limit).repr ++ " more than the limit of " ++ limit.repr
  | tooManyPlaceholders max =>
    "A selection path needs more than " ++ max.repr ++ " placeholders"
  | expressionInvalid expression message =>
    "Expression '" ++ expression ++ "' is invalid: " ++ message
  | tooManyPaths paths limit =>
    "The template expands to " ++ paths.repr ++ " selection paths, more than the limit of "
      ++ limit.repr
  | unknownEngine name => "No roll engine is registered for '" ++ name.text ++ "'"

end RollMenu
