/-!
# Writing JSON texts

A text is written with the short escapes where there are any, and with `\u00xx` for the
other control characters below the blank. Everything else stands for itself.
-/

namespace RollMenu.Json

/-- A character as it stands in a written text. -/
def writeChar (c : Char) : List Char :=
  match c with
  | '"' => ['\\', '"']
  | '\\' => ['\\', '\\']
  | '\x08' => ['\\', 'b']
  | '\x0c' => ['\\', 'f']
  | '\n' => ['\\', 'n']
  | '\r' => ['\\', 'r']
  | '\t' => ['\\', 't']
  | c =>
    if c.toNat < 0x20 then
      ['\\', 'u', '0', '0', Nat.digitChar (c.toNat / 16), Nat.digitChar (c.toNat % 16)]
    else [c]

/-- Writes a text with its quotes. -/
def writeText (s : String) : String :=
  String.ofList ('"' :: (s.toList.flatMap writeChar ++ ['"']))

/-- Writes a value that may be missing. -/
def writeOptional {α : Type} (write : α → String) : Option α → String
  | none => "null"
  | some a => write a

/-- Writes an object of written values without blanks. -/
def writeObject (fields : List (String × String)) : String :=
  "\x7b" ++ ",".intercalate (fields.map fun field => writeText field.1 ++ ":" ++ field.2) ++ "\x7d"

end RollMenu.Json
