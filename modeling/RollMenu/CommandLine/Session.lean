import RollMenu.CommandLine.Arguments
import RollMenu.Engine
import RollMenu.Limits.Json
import RollMenu.Validation.Search

/-!
# Sessions

What the commands print. Checking a template ends at once. Playing shows prompts with
numbered buttons and takes one line of input for each, until a selection is complete and
rolled. A session is a state that a line of input takes further, so a terminal and a
list of lines can both drive it.
-/

namespace RollMenu.CommandLine

/-- How a session ends. -/
structure Ending where
  status : Nat
  output : String := ""
  errors : String := ""
  deriving DecidableEq, Repr

/-- The ending with an error message. -/
def Ending.failure (message : String) : Ending :=
  { status := 1, errors := "\nError: " ++ message ++ "\n" }

/-- A selection that is being played. -/
structure Play where
  flow : Flow
  user : String
  progress : Progress := {}

/-- How a session begins. -/
inductive Start where
  | ended (ending : Ending)
  /-- The template that was to be checked is valid. -/
  | valid
  | playing (play : Play)

/-- What a line of input leads to. -/
inductive Step where
  /-- The selection goes on behind some output. -/
  | goesOn (output : String) (play : Play)
  | roll (request : RollRequest)
  | ended (ending : Ending)

/-- The ending of a check that found nothing. -/
def validEnding (duration : String) : Ending :=
  { status := 0, output := "Template is valid (checked in " ++ duration ++ ")\n" }

namespace Invocation

/-- The configuration that a command line describes. -/
def config (i : Invocation) : Config :=
  { template := i.template
    answerTarget := i.target
    answerFormat := i.format.getD .withoutExpression }

/-- The limits of a command line, where `read` gives the text of a file or says why there is
none. -/
def loadLimits (i : Invocation) (read : String → Except String String) : Except String Limits :=
  match i.limits with
  | none => .ok {}
  | some path =>
    match read path with
    | .error reason => .error ("Failed to load limits from '" ++ path ++ "': " ++ reason)
    | .ok text =>
      match Limits.ofJson text with
      | none => .error ("Failed to load limits from '" ++ path ++ "': not a valid limits file")
      | some limits => .ok limits

/-- Begins the session of a command line. -/
def start (i : Invocation) (read : String → Except String String) : Start :=
  match i.loadLimits read with
  | .error message => .ended (.failure message)
  | .ok limits =>
    match Validation.validate limits i.config Dice.complaint with
    | .error e => .ended (.failure ("Template is invalid: " ++ e.message))
    | .ok () =>
      match i.command with
      | .validate => .valid
      | .play =>
        match Flow.ofConfig limits i.config with
        | .error e => .ended (.failure ("Compilation failed: " ++ e.message))
        | .ok flow => .playing { flow, user := i.user }

end Invocation

namespace Play

/-- The buttons that are shown. -/
def buttons (p : Play) : List Button := (p.flow.prompt p.progress).buttons

/-- The line of a button with its number. -/
def buttonLine (number : Nat) (button : Button) : String :=
  let digits := number.repr
  let padding := if digits.length < 2 then " " else ""
  "  " ++ padding ++ digits ++ ": " ++ button.label ++ "\n"

/-- What is shown before a line of input is read. -/
def screen (p : Play) : String :=
  "\n" ++ (p.flow.prompt p.progress).text ++ "\n"
    ++ String.join (p.buttons.zipIdx.map fun (button, i) => buttonLine (i + 1) button)
    ++ "> Select a button: "

/-- The button that a line of input chooses by its number. -/
def chosen (p : Play) (line : String) : Option Button :=
  match Decimal.word? (Text.trim line.toList) with
  | none => none
  | some number => if number = 0 then none else p.buttons[number.toNat - 1]?

/-- Clicks a button the way a platform does it, by its id. -/
def press (p : Play) (button : Button) : Step :=
  match WireId.decode button.id with
  | .error e => .ended (.failure ("Button id is corrupt: " ++ e.message))
  | .ok id =>
    let before := { selections := id.selections, lock := p.progress.lock }
    match p.flow.click before id.click p.user with
    | .completed _ roll => .roll roll
    | .continued progress | .cleared progress => .goesOn "" { p with progress }
    | .ignored _ why => .goesOn ("Click ignored: " ++ why.message ++ "\n") p

/-- Takes a line of input. -/
def enter (p : Play) (line : String) : Step :=
  match p.chosen line with
  | some button => p.press button
  | none =>
    .goesOn ("Invalid choice. Please enter 1 to " ++ p.buttons.length.repr ++ ".\n") p

/-- The ending when the input is over too early. -/
def closed : Ending := .failure "Input closed before the selection was complete"

/-- Rolls a completed selection and ends the session. -/
def finish {σ : Type} (face : Dice.FaceSource σ) (s : σ) (roll : RollRequest) : Ending :=
  match (Dice.roll face roll.expression s).1 with
  | .error e => .failure ("Roll failed: " ++ e.message)
  | .ok result =>
    let label := match roll.label with
      | none => ""
      | some label => label ++ "\n"
    { status := 0
      output := "\n" ++ label ++ "  -> " ++ result.details ++ "\n  -> Total: "
        ++ Decimal.ofInt result.total ++ "\n" }

/-- Plays on with lines of input and shows everything that is printed meanwhile. -/
def run {σ : Type} (face : Dice.FaceSource σ) (s : σ) : Play → List String → Ending
  | p, [] => { closed with output := p.screen }
  | p, line :: lines =>
    let rest := match p.enter line with
      | .goesOn output next =>
        let ending := run face s next lines
        { ending with output := output ++ ending.output }
      | .roll request => finish face s request
      | .ended ending => ending
    { rest with output := p.screen ++ rest.output }

end Play

/-- The lines of an input. A line feed ends a line, and what follows the last one counts if
there is anything. -/
def lines (input : String) : List String :=
  let parts := input.toList.splitOn '\n'
  let complete := parts.dropLast
  let last := parts.getLast?.getD []
  (complete ++ if last.isEmpty then [] else [last]).map String.ofList

/-- The whole session of a command line whose input is known. -/
def Invocation.session {σ : Type} (face : Dice.FaceSource σ) (s : σ) (duration : String)
    (read : String → Except String String) (input : String) (i : Invocation) : Ending :=
  match i.start read with
  | .ended ending => ending
  | .valid => validEnding duration
  | .playing play => play.run face s (lines input)

end RollMenu.CommandLine
