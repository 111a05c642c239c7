import RollMenu.Progress

/-!
# Clicks

What one click does to a selection. The first click locks the selection for its user,
the clear button forgets everything, and the click that completes the selection gives
the roll to make. Every other click is ignored and says why.
-/

namespace RollMenu

/-- What is handed to a roll engine. -/
structure RollRequest where
  expression : String
  label : Option String
  deriving DecidableEq, Repr

/-- What a click came to. -/
inductive Outcome where
  /-- There is more to select. -/
  | continued (progress : Progress)
  /-- Everything is selected. -/
  | completed (progress : Progress) (roll : RollRequest)
  /-- The selection starts over. -/
  | cleared (progress : Progress)
  /-- Nothing happened. -/
  | ignored (progress : Progress) (why : Refusal)
  deriving DecidableEq, Repr

/-- Where the selection stands after the click. -/
def Outcome.progress : Outcome → Progress
  | continued p | completed p _ | cleared p | ignored p _ => p

/-- The click value of the clear button. -/
def clearClick : String := "clear"

/-- Stands for a placeholder that a direct choice skipped. Engines read it as nothing. -/
def skippedValue : String := "''"

namespace Menu

/-- The label of an answer: the template's own, or else the chosen labels by placeholder,
unless the answer shows the whole expression anyway. -/
def answerLabel (m : Menu) (p : Progress) (format : AnswerFormat) : Option String :=
  match m.template.label with
  | some label => some label
  | none =>
    if format = .full then none
    else
      let chosen := (p.selections.zip m.parameters).map fun (value, parameter) =>
        parameter.placeholder.name ++ ": "
          ++ ((parameter.choiceByValue value).map Choice.label).getD value
      if chosen.isEmpty then none else some (", ".intercalate chosen)

/-- The values that fill the template, skipped ones included. -/
def filling (m : Menu) (p : Progress) : List String :=
  (List.range m.size).map fun i => p.selections[i]?.getD skippedValue

/-- The roll to make, once the selection is complete. -/
def rollRequest (m : Menu) (p : Progress) (format : AnswerFormat) : Option RollRequest :=
  match m.status p with
  | .complete =>
    some { expression := m.template.substitute (m.filling p), label := m.answerLabel p format }
  | _ => none

/-- The refusal of a user who does not own the selection. -/
def lockedOut (p : Progress) (user : String) : Option Refusal :=
  match p.lock with
  | none => none
  | some owner => if owner = user then none else some (.lockedBy owner user)

/-- What a click of `user` on the button with the click value `clicked` comes to. -/
def click (m : Menu) (p : Progress) (clicked user : String) (format : AnswerFormat) : Outcome :=
  match lockedOut p user with
  | some refusal => .ignored p refusal
  | none =>
    if clicked = clearClick then .cleared {}
    else
      match m.checkSelections p.selections with
      | .error refusal => .ignored p refusal
      | .ok () =>
        match m.advance p clicked with
        | .error refusal => .ignored p refusal
        | .ok next =>
          let next := { next with lock := some (p.lock.getD user) }
          match m.rollRequest next format with
          | some roll => .completed next roll
          | none => .continued next

end Menu

end RollMenu
