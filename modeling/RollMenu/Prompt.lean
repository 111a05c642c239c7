import RollMenu.Click
import RollMenu.WireId

/-!
# Prompts

How a selection is shown: a line that says what to select, and rows of buttons. Every
button carries the selections made so far, so that a click on it can be handled without
looking anything up.
-/

namespace RollMenu

/-- What a button is for. -/
inductive ButtonStyle where
  /-- One more selection. -/
  | primary
  /-- A selection that completes the roll. -/
  | success
  /-- The clear button. -/
  | danger
  deriving DecidableEq, Repr

/-- A button of a prompt. -/
structure Button where
  /-- The encoded wire id. -/
  id : String
  label : String
  style : ButtonStyle
  deriving DecidableEq, Repr

/-- The content of a message. -/
structure Prompt where
  text : String
  rows : List (List Button)
  deriving DecidableEq, Repr, Inhabited

/-- All buttons, row by row. -/
def Prompt.buttons (p : Prompt) : List Button := p.rows.flatten

/-- Cuts a list into rows of `extra + 1`, the last of which may be shorter. -/
def inRows {α : Type} (extra : Nat) : List α → List (List α)
  | [] => []
  | x :: xs => (x :: xs.take extra) :: inRows extra (xs.drop extra)
termination_by xs => xs.length
decreasing_by simp only [List.length_drop, List.length_cons]; omega

@[simp] theorem inRows_nil {α : Type} (extra : Nat) : inRows extra ([] : List α) = [] := by
  rw [inRows]

theorem inRows_cons {α : Type} (extra : Nat) (x : α) (xs : List α) :
    inRows extra (x :: xs) = (x :: xs.take extra) :: inRows extra (xs.drop extra) := by
  rw [inRows]

/-- Cutting into rows loses nothing and keeps the order. -/
theorem flatten_inRows {α : Type} (extra : Nat) (xs : List α) :
    (inRows extra xs).flatten = xs := by
  fun_induction inRows extra xs with
  | case1 => rfl
  | case2 x xs ih => simp [ih]

namespace Menu

/-- The id of the button that clicks `click` after these selections. -/
def wireId (m : Menu) (selections : List String) (target : Option UInt64) (click : String) :
    WireId :=
  { command := m.limits.commandName, selections, target, click }

/-- The button of a choice. -/
def choiceButton (m : Menu) (p : Progress) (target : Option UInt64) (choice : Choice) : Button :=
  { id := (m.wireId p.selections target choice.id).encode
    label := choice.label
    style := if choice.direct then .success else .primary }

/-- The button that forgets all selections. -/
def clearButton (m : Menu) (p : Progress) (target : Option UInt64) : Button :=
  { id := (m.wireId p.selections target clearClick).encode, label := "Clear", style := .danger }

/-- The buttons offered: one for each choice of the pending placeholder, and the clear button
once anything is selected. A complete selection offers none. -/
def buttons (m : Menu) (p : Progress) (target : Option UInt64) : List Button :=
  match m.pending p with
  | none => []
  | some parameter =>
    parameter.choices.map (m.choiceButton p target)
      ++ if p.selections.isEmpty then [] else [m.clearButton p target]

/-- The text of a prompt. -/
def promptText (m : Menu) (p : Progress) (format : AnswerFormat) : String :=
  let owner := match p.lock with
    | none => ""
    | some user => user ++ ": "
  let expression := if format = .full then m.template.display p.selections ++ "\n" else ""
  let question := match m.pending p with
    | none => ""
    | some parameter => "Please select value for " ++ parameter.placeholder.heading
  owner ++ expression ++ question

/-- The prompt of a selection. When it is complete the message starts over, since the roll is
answered elsewhere. -/
def prompt (m : Menu) (p : Progress) (target : Option UInt64) (format : AnswerFormat) : Prompt :=
  let shown := match m.status p with
    | .complete => {}
    | _ => p
  { text := m.promptText shown format
    rows := inRows (m.limits.buttonsPerRow.toNat - 1) (m.buttons shown target) }

end Menu

/-- A configuration together with the menu of its template. -/
structure Flow where
  config : Config
  menu : Menu

namespace Flow

/-- Expands the template of a configuration. -/
def ofConfig (limits : Limits) (config : Config) : Except ConfigError Flow := do
  let menu ← Menu.compile limits config.template
  return { config, menu }

/-- The prompt of a selection. -/
def prompt (f : Flow) (p : Progress) : Prompt :=
  f.menu.prompt p f.config.answerTarget f.config.answerFormat

/-- What a click comes to. -/
def click (f : Flow) (p : Progress) (clicked user : String) : Outcome :=
  f.menu.click p clicked user f.config.answerFormat

end Flow

end RollMenu
