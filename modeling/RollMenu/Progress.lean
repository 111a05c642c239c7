import RollMenu.Menu

/-!
# Progress through a menu

How far a selection has come is the list of the values chosen so far, one for each
placeholder from the left, and who is choosing. A direct choice completes the selection
wherever it is made. The values alone are carried by button ids, so they are replayed
against the menu before a click on them counts.
-/

namespace RollMenu

/-- The selections made on one message and their owner. -/
structure Progress where
  selections : List String := []
  /-- The user whose first click locked the selection. -/
  lock : Option String := none
  deriving DecidableEq, Repr, Inhabited

/-- How far a selection has come. -/
inductive Status where
  | empty
  /-- Some placeholders are filled and some are not. -/
  | partly (filled : Nat)
  | complete
  deriving DecidableEq, Repr

namespace Menu

/-- Whether the last selection is a direct choice. -/
def endedDirectly (m : Menu) (p : Progress) : Bool :=
  match p.selections.getLast? with
  | none => false
  | some value =>
    match m.parameters[p.selections.length - 1]? with
    | none => false
    | some parameter => (parameter.choiceByValue value).any Choice.direct

/-- How far a selection has come. -/
def status (m : Menu) (p : Progress) : Status :=
  if m.size ≤ p.selections.length || m.endedDirectly p then .complete
  else if p.selections.isEmpty then .empty
  else .partly p.selections.length

/-- The parameter that the next click fills. -/
def pending (m : Menu) (p : Progress) : Option Parameter :=
  match m.status p with
  | .complete => none
  | _ => m.parameters[p.selections.length]?

/-- Appends what was clicked to the selections. The lock stays as it is. -/
def advance (m : Menu) (p : Progress) (clicked : String) : Except Refusal Progress :=
  match m.pending p with
  | none => .error .alreadyComplete
  | some parameter =>
    match parameter.choice clicked with
    | none => .error (.notOffered clicked parameter.placeholder.expression)
    | some choice => .ok { p with selections := p.selections ++ [choice.value] }

/-- Replays values against parameters: each has to be offered, and none may follow a direct
choice, which `ended` says of the value before. -/
def replay (ended : Bool) : List Parameter → List String → Except Refusal Unit
  | _, [] => .ok ()
  | [], _ :: _ => .error .alreadyComplete
  | parameter :: parameters, value :: values =>
    match (parameter.choiceByValue value).filter fun _ => !ended with
    | none => .error (.notOffered value parameter.placeholder.expression)
    | some choice => replay choice.direct parameters values

/-- Whether the selections could have been made through the buttons of this menu. -/
def checkSelections (m : Menu) (selections : List String) : Except Refusal Unit :=
  replay false m.parameters selections

end Menu

end RollMenu
