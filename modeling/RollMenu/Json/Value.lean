/-!
# JSON values

JSON documents as far as configuration files need them. Two things are kept apart that
other uses would not: numbers that are plain natural numbers from all others, and texts
whose escapes name half of a surrogate pair, which are no Unicode text, from all others.
Such things may stand in a file wherever nothing reads them.
-/

namespace RollMenu.Json

/-- A JSON document. -/
inductive Value where
  | null
  | bool (b : Bool)
  /-- A number without sign, fraction and exponent. -/
  | natural (n : Nat)
  /-- Any other number. -/
  | otherNumber
  /-- A text, or nothing if its escapes do not make one. -/
  | text (s : Option String)
  | array (items : List Value)
  /-- Names and values in the order in which they are written. -/
  | object (fields : List (Option String × Value))
  deriving Inhabited

namespace Value

/-- The text of a document that is one. -/
def text? : Value → Option String
  | text s => s
  | _ => none

/-- The number of a document that is one and fits into a word. -/
def word? : Value → Option UInt64
  | natural n => if n < UInt64.size then some (UInt64.ofNat n) else none
  | _ => none

/-- Reads a document that may also be null. -/
def optional {α : Type} (read : Value → Option α) : Value → Option (Option α)
  | null => some none
  | v => (read v).map some

/-- Reads one of several names, written as a text or as an object with that one field, which
is null. -/
def oneOf {α : Type} (all : List α) (name : α → String) : Value → Option α
  | text (some s) => all.find? fun a => name a == s
  | object [(some s, null)] => all.find? fun a => name a == s
  | _ => none

/-- Whether no name stands twice in a list of fields. -/
def distinctIn (names : List String) (fields : List (Option String × Value)) : Bool :=
  names.all fun name => (fields.filter fun field => field.1 == some name).length ≤ 1

/-- The fields of a record in the order of their names. An object has them by name, in any
order and among others, each at most once. An array has them by position. Missing ones are
nothing; `partialArray` says whether they may be missing from an array. -/
def record (partialArray : Bool) (names : List String) : Value → Option (List (Option Value))
  | object fields =>
    if fields.all (fun field => field.1.isSome) && distinctIn names fields then
      some (names.map fun name =>
        (fields.find? fun field => field.1 == some name).map Prod.snd)
    else none
  | array items =>
    if items.length = names.length || (partialArray && items.length < names.length) then
      some ((List.range names.length).map fun i => items[i]?)
    else none
  | _ => none

end Value

end RollMenu.Json
