import RollMenu.Config
import RollMenu.Text.Decimal

/-!
# Arguments

The command line names a command, a template, and options in front of or behind the
command. An option's value is attached to it or is the next argument, which then must
not look like an option. Two dashes alone end the options. Each option may be given once
in front of the command and once behind it, where the latter counts.
-/

namespace RollMenu.CommandLine

/-- The options. -/
inductive Flag where
  | limits
  | format
  | target
  | user
  | seed
  deriving DecidableEq, Repr

namespace Flag

/-- The letter of an option. -/
def short : Flag → Char
  | limits => 'l'
  | format => 'f'
  | target => 't'
  | user => 'u'
  | seed => 's'

/-- The long name of an option. -/
def long : Flag → String
  | limits => "limits"
  | format => "format"
  | target => "target"
  | user => "user"
  | seed => "seed"

/-- The options that every command has. -/
def general : List Flag := [limits, format, target]

end Flag

/-- The commands. -/
inductive Command where
  | validate
  | play
  deriving DecidableEq, Repr

namespace Command

/-- Reads the name of a command. -/
def ofName? (name : String) : Option Command :=
  if name = "validate" then some validate
  else if name = "play" then some play
  else none

/-- The options that a command has. -/
def flags : Command → List Flag
  | validate => Flag.general
  | play => Flag.general ++ [.user, .seed]

end Command

/-- A command line that has been understood. -/
structure Invocation where
  command : Command
  template : String
  /-- The path of a limits file. -/
  limits : Option String := none
  format : Option AnswerFormat := none
  target : Option UInt64 := none
  /-- The user who plays. -/
  user : String := "cli"
  seed : Option UInt64 := none
  deriving DecidableEq, Repr

/-! ## Splitting the arguments -/

/-- The options of one part of the command line with their values, and its other arguments. -/
structure Split where
  values : List (Flag × String) := []
  others : List String := []
  deriving Repr

/-- What an argument is by its form. -/
inductive Shape where
  /-- The end of the options. -/
  | stop
  /-- An option that is none of the known ones. -/
  | unknown
  /-- An option and the value attached to it, if there is one. -/
  | option (flag : Flag) (value : Option String)
  | other
  deriving Repr

/-- The shape of an argument, where some options are known. -/
def shape (known : List Flag) (argument : String) : Shape :=
  match argument.toList with
  | ['-', '-'] => .stop
  | '-' :: '-' :: body =>
    let name := String.ofList (body.takeWhile (· != '='))
    match known.find? (·.long == name) with
    | none => .unknown
    | some flag =>
      match body.dropWhile (· != '=') with
      | [] => .option flag none
      | _ :: value => .option flag (some (String.ofList value))
  | '-' :: letter :: body =>
    match known.find? (·.short == letter) with
    | none => .unknown
    | some flag =>
      match body with
      | [] => .option flag none
      | '=' :: value => .option flag (some (String.ofList value))
      | value => .option flag (some (String.ofList value))
  | _ => .other

/-- Whether an argument can be the value of the option before it. -/
def isValue (argument : String) : Bool :=
  match argument.toList with
  | '-' :: _ :: _ => false
  | _ => true

/-- Splits options from other arguments. An argument that is no option ends the first part of a
command line, which is the one in front of the command. -/
def split (known : List Flag) (front : Bool) : List String → Option Split
  | [] => some {}
  | argument :: rest =>
    match shape known argument with
    | .stop => if front then none else some { others := rest }
    | .unknown => none
    | .option flag (some value) =>
      (split known front rest).map fun s => { s with values := (flag, value) :: s.values }
    | .option flag none =>
      match rest with
      | [] => none
      | value :: rest =>
        if isValue value then
          (split known front rest).map fun s => { s with values := (flag, value) :: s.values }
        else none
    | .other =>
      if front then some { others := argument :: rest }
      else (split known front rest).map fun s => { s with others := argument :: s.others }

/-! ## Reading the values -/

/-- Whether no option is given twice. -/
def noRepeats (values : List (Flag × String)) : Bool :=
  values.all fun v => (values.filter fun w => w.1 == v.1).length == 1

/-- Reads the name of an answer format. -/
def readFormat (name : String) : Option AnswerFormat :=
  if name = "full" then some .full
  else if name = "without-expression" then some .withoutExpression
  else if name = "compact" then some .compact
  else if name = "minimal" then some .minimal
  else none

/-- Takes the value of an option over into an invocation. -/
def Invocation.set (i : Invocation) : Flag × String → Option Invocation
  | (.limits, path) => some { i with limits := some path }
  | (.format, name) => (readFormat name).map fun format => { i with format := some format }
  | (.target, number) =>
    (Decimal.word? number.toList).map fun target => { i with target := some target }
  | (.user, name) => some { i with user := name }
  | (.seed, number) => (Decimal.word? number.toList).map fun seed => { i with seed := some seed }

/-- Reads a command line. There is no result when the arguments are wrong. -/
def Invocation.ofArguments? (arguments : List String) : Option Invocation := do
  let front ← split Flag.general true arguments
  match front.others with
  | [] => none
  | name :: rest =>
    let command ← Command.ofName? name
    let behind ← split command.flags false rest
    match behind.others with
    | [template] =>
      if noRepeats front.values && noRepeats behind.values then
        (front.values ++ behind.values).foldlM Invocation.set { command, template }
      else none
    | _ => none

end RollMenu.CommandLine
