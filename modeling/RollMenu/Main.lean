import RollMenu.CommandLine.Session

/-!
# The program

Checks or plays a template from the command line.
-/

namespace RollMenu.CommandLine

/-- Words that a number sets off. -/
def seededWords (seed count : Nat) : Dice.Words :=
  let step := fun (words, g) (_ : Nat) =>
    let (word, g) := randNat g 0 (UInt32.size - 1)
    (words.push (UInt32.ofNat word), g)
  { words := ((List.range count).foldl step (#[], mkStdGen seed)).1 }

/-- Enough words for the largest pools of a long expression. -/
def wordCount : Nat := 65536

/-- The text of a file, or why there is none. -/
def readFile (path : String) : IO (Except String String) := do
  try
    return .ok (← IO.FS.readFile path)
  catch
    | .noFileOrDirectory .. => return .error "No such file or directory (os error 2)"
    | e => return .error (toString e)

/-- Prints how a session ended. -/
def report (ending : Ending) : IO UInt32 := do
  IO.print ending.output
  IO.eprint ending.errors
  return UInt32.ofNat ending.status

/-- Plays in a terminal. -/
partial def play (words : Dice.Words) (p : Play) : IO UInt32 := do
  let out ← IO.getStdout
  out.putStr p.screen
  out.flush
  let line ← (← IO.getStdin).getLine
  if line.isEmpty then report Play.closed
  else match p.enter line with
    | .goesOn output next => do
      out.putStr output
      play words next
    | .roll request => report (Play.finish Dice.Words.face words request)
    | .ended ending => report ending

/-- How the program is called. -/
def usage : String :=
  "Usage: roll-menu [-l LIMITS] [-f FORMAT] [-t TARGET] "
    ++ "validate TEMPLATE | play TEMPLATE [-u USER] [-s SEED]\n"

/-- Runs a command line. -/
def run (arguments : List String) : IO UInt32 := do
  match Invocation.ofArguments? arguments with
  | none =>
    IO.eprint usage
    return 2
  | some i =>
    let limitsText ← match i.limits with
      | none => pure (.ok "")
      | some path => readFile path
    let began ← IO.monoMsNow
    match i.start fun _ => limitsText with
    | .ended ending => report ending
    | .valid => report (validEnding (((← IO.monoMsNow) - began).repr ++ "ms"))
    | .playing p =>
      let seed ← match i.seed with
        | some seed => pure seed.toNat
        | none => IO.rand 0 0x7fffffffffffffff
      play (seededWords seed wordCount) p

end RollMenu.CommandLine

/-- Checks or plays a template. -/
def main (arguments : List String) : IO UInt32 :=
  RollMenu.CommandLine.run arguments
