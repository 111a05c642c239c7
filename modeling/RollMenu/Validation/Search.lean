import RollMenu.Prompt
import RollMenu.Validation.Corner

/-!
# The search through a menu

A configuration is accepted when every path of corner cases goes well: no state on it
needs a button id that is too long or offers a value twice, no path takes too many
selections, and the engine takes the expression at its end. Before the first step the
depth and the number of the paths are bounded, so the search always stays small. Beside
its verdict the search reports what it asked the engine.
-/

namespace RollMenu.Validation

/-- What a search came to. -/
structure Report where
  /-- The expressions that the engine was asked about, in order. -/
  asked : List String
  verdict : Except ConfigError Unit

namespace Report

/-- Nothing was asked and nothing is wrong. -/
def accepted : Report := { asked := [], verdict := .ok () }

/-- Nothing was asked and something is wrong. -/
def rejected (e : ConfigError) : Report := { asked := [], verdict := .error e }

/-- Reports on a list in order, up to the first failure. -/
def inOrder {α : Type} (report : α → Report) : List α → Report
  | [] => accepted
  | x :: xs =>
    let first := report x
    match first.verdict with
    | .error _ => first
    | .ok () =>
      let rest := inOrder report xs
      { asked := first.asked ++ rest.asked, verdict := rest.verdict }

end Report

/-- The first value that has stood in the list before. -/
def firstRepeated (seen : List String) : List String → Option String
  | [] => none
  | value :: values =>
    if seen.contains value then some value else firstRepeated (value :: seen) values

/-- What a search is about. -/
structure Search where
  menu : Menu
  target : Option UInt64
  format : AnswerFormat
  /-- The problem that the engine has with an expression. -/
  complaint : String → Option String

namespace Search

/-- The limits of the search are those that the menu was made with. -/
def maxPlaceholders (s : Search) : Nat := s.menu.limits.maxPlaceholders.toNat

/-- The first button, in order, whose id is too long. -/
def longId (s : Search) (p : Progress) : Option ConfigError :=
  let limit := s.menu.limits.maxIdLength.toNat
  ((s.menu.buttons p s.target).find? fun button => limit < button.id.length).map fun button =>
    .idTooLong button.id button.id.length limit

/-- Asks the engine about the expression of a complete selection. -/
def askEngine (s : Search) (p : Progress) : Report :=
  match s.menu.rollRequest p s.format with
  | none => .accepted
  | some roll =>
    { asked := [roll.expression]
      verdict := match s.complaint roll.expression with
        | none => .ok ()
        | some message => .error (.expressionInvalid roll.expression message) }

/-- What is wrong with an incomplete selection that asks for `parameter`, apart from what lies
ahead of it. -/
def defect (s : Search) (p : Progress) (parameter : Parameter) : Option ConfigError :=
  if s.maxPlaceholders ≤ p.selections.length then some (.tooManyPlaceholders s.maxPlaceholders)
  else match firstRepeated [] (parameter.choices.map Choice.value) with
    | some value => some (.duplicateValue parameter.placeholder.expression value)
    | none => s.longId p

/-- Searches everything from a selection on which leaves at most `left` placeholders open. -/
def visit (s : Search) : Nat → Progress → Report
  | left, p =>
    match s.menu.status p with
    | .complete => s.askEngine p
    | _ =>
      match s.menu.pending p with
      | none => .accepted
      | some parameter =>
        match s.defect p parameter with
        | some e => .rejected e
        | none =>
          match left with
          | 0 => .accepted
          | left + 1 =>
            Report.inOrder
              (fun choice => match s.menu.advance p choice.id with
                | .error refusal =>
                  .rejected (.refusedChoice parameter.placeholder.start refusal)
                | .ok next => visit s left next)
              (corners parameter.choices)

end Search

/-- Whether a path of corner cases needs more selections than allowed: only a direct choice
ends a path early. -/
def exceedsDepth (menu : Menu) : Bool :=
  let max := menu.limits.maxPlaceholders.toNat
  max < menu.size
    && (menu.parameters.take max).all fun p => (corners p.choices).any fun c => !c.direct

/-- The product of two counts, as far as a word can hold it. -/
def saturatingMul (a b : Nat) : Nat := min (a * b) (Decimal.wordBound - 1)

/-- An upper bound on the number of paths. Placeholders past the depth bound are never
reached. -/
def pathCount (menu : Menu) : Nat :=
  ((menu.parameters.take menu.limits.maxPlaceholders.toNat).map
    fun p => (corners p.choices).length).foldl saturatingMul 1

/-- Whether a character separates parts of a wire id, so that no part may contain it. -/
def isReserved (c : Char) : Bool := c == fieldSeparator || c == selectionSeparator

/-- The first reserved character of a text that starts at byte `position`, and its byte
offset. -/
def firstReserved (position : Nat) : List Char → Option (Nat × Char)
  | [] => none
  | c :: cs => if isReserved c then some (position, c) else firstReserved (position + c.utf8Size) cs

/-- Checks a menu by searching it. -/
def searchMenu (menu : Menu) (config : Config) (complaint : String → Option String) : Report :=
  let limits := menu.limits
  if menu.parameters.isEmpty then .rejected (.malformed ⟨0, .noPlaceholder⟩)
  else if exceedsDepth menu then .rejected (.tooManyPlaceholders limits.maxPlaceholders.toNat)
  else if limits.maxPaths.toNat < pathCount menu then
    .rejected (.tooManyPaths (pathCount menu) limits.maxPaths.toNat)
  else
    Search.visit
      { menu, target := config.answerTarget, format := config.answerFormat, complaint }
      menu.size {}

/-- Checks a configuration and reports what the engine was asked. -/
def report (limits : Limits) (config : Config) (complaint : String → Option String) : Report :=
  match firstReserved 0 config.template.toList with
  | some (position, c) => .rejected (.malformed ⟨position, .reserved c⟩)
  | none =>
    match Menu.compile limits config.template with
    | .error e => .rejected e
    | .ok menu => searchMenu menu config complaint

/-- Whether a configuration is accepted. -/
def validate (limits : Limits) (config : Config) (complaint : String → Option String) :
    Except ConfigError Unit :=
  (report limits config complaint).verdict

end RollMenu.Validation
