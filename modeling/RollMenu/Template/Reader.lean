import RollMenu.Template.Basic

/-!
# Reading templates

A template is read from left to right in steps of one placeholder: plain text up to a
brace, the brace pair, and on. Braces do not nest, and each of the ways in which a
template can be malformed is reported at the byte where it shows.
-/

namespace RollMenu

namespace Template

/-- What can be wrong with the text of a template. -/
inductive Flaw where
  /-- A brace opens inside a placeholder. -/
  | nested
  /-- A brace closes and none is open. -/
  | unopened
  /-- A brace opens and is never closed. -/
  | unclosed
  /-- There is nothing between the braces but blanks. -/
  | empty
  /-- There is nothing before the colon but blanks. -/
  | unnamed
  /-- A character occurs that separates the fields of a wire id. -/
  | reserved (c : Char)
  /-- There is nothing to select. -/
  | noPlaceholder
  deriving DecidableEq, Repr

/-- A reserved character as error texts write it. -/
def Flaw.shown (c : Char) : String :=
  if c = '\t' then "'\\t'"
  else "'\\u\x7b" ++ String.ofList (Nat.toDigits 16 c.toNat) ++ "\x7d'"

/-- The wording of a flaw. -/
def Flaw.reason : Flaw → String
  | nested => "placeholders can not be nested"
  | unopened => "closing brace without opening brace"
  | unclosed => "brace is never closed"
  | empty => "placeholder is empty"
  | unnamed => "placeholder has no name"
  | reserved c => "reserved character " ++ shown c ++ " is not allowed"
  | noPlaceholder => "template has no placeholders"

/-- A flaw and the byte offset it is reported at. -/
structure Fault where
  position : Nat
  flaw : Flaw
  deriving DecidableEq, Repr

/-- Whether a character is no brace. -/
def isPlain (c : Char) : Bool := c != '{' && c != '}'

/-- Splits the text between two braces at its first colon. -/
def splitSpec (inner : List Char) : List Char × Option (List Char) :=
  match inner.dropWhile (· != ':') with
  | [] => (inner, none)
  | _ :: spec => (inner.takeWhile (· != ':'), some spec)

/-- The placeholder written as `inner` between braces from byte `start` on. -/
def readPlaceholder (index start : Nat) (inner : List Char) : Except Fault Placeholder :=
  let parts := splitSpec inner
  if Text.Blank inner then .error ⟨start, .empty⟩
  else if Text.Blank parts.1 then .error ⟨start, .unnamed⟩
  else .ok {
    index
    name := String.ofList parts.1
    spec := parts.2.map String.ofList
    start
    stop := start + Text.byteLength inner + 2 }

/-- Reads slots from byte `position` on, the next placeholder being number `index`. Returns
them with the text behind the last one. -/
def readSlots (index position : Nat) (cs : List Char) : Except Fault (List Slot × List Char) :=
  let lead := cs.takeWhile isPlain
  let start := position + Text.byteLength lead
  match hopen : cs.dropWhile isPlain with
  | [] => .ok ([], lead)
  | '}' :: _ => .error ⟨start, .unopened⟩
  | _ :: behind =>
    let inner := behind.takeWhile isPlain
    match hclose : behind.dropWhile isPlain with
    | [] => .error ⟨start, .unclosed⟩
    | '{' :: _ => .error ⟨start + 1 + Text.byteLength inner, .nested⟩
    | _ :: rest => do
      have : rest.length < cs.length := by
        have h₁ := (List.dropWhile_sublist (p := isPlain) (l := cs)).length_le
        have h₂ := (List.dropWhile_sublist (p := isPlain) (l := behind)).length_le
        simp only [hopen, hclose, List.length_cons] at h₁ h₂
        omega
      let placeholder ← readPlaceholder index start inner
      let (slots, tail) ← readSlots (index + 1) placeholder.stop rest
      return (⟨String.ofList lead, placeholder⟩ :: slots, tail)
termination_by cs.length

/-- Splits the text behind the last placeholder into the body and the answer label. An `@`
with nothing after it labels nothing, and only the first `@` is looked at. -/
def splitLabel (tail : List Char) : List Char × Option (List Char) :=
  match tail.dropWhile (· != '@') with
  | [] | [_] => (tail, none)
  | _ :: label => (tail.takeWhile (· != '@'), some label)

/-- Reads a template. -/
def parse (source : String) : Except Fault Template := do
  let (slots, tail) ← readSlots 0 0 source.toList
  let parts := splitLabel tail
  return { slots, body := String.ofList parts.1, label := parts.2.map String.ofList }

end Template

end RollMenu
