/-!
# Refusals

Why a click on a button is not taken. A refusal changes nothing.
-/

namespace RollMenu

/-- The reasons for which a click is ignored. -/
inductive Refusal where
  /-- No choice of the placeholder answers to what was clicked. -/
  | notOffered (clicked placeholder : String)
  /-- Somebody else is making this selection. -/
  | lockedBy (owner user : String)
  /-- There is nothing left to select. -/
  | alreadyComplete
  deriving DecidableEq, Repr

/-- The wording of a refusal. -/
def Refusal.message : Refusal → String
  | notOffered clicked placeholder =>
    "Option '" ++ clicked ++ "' is not offered for placeholder '" ++ placeholder ++ "'"
  | lockedBy owner user =>
    "The selection is locked for '" ++ owner ++ "', ignoring the click of '" ++ user ++ "'"
  | alreadyComplete => "The flow is already complete"

end RollMenu
