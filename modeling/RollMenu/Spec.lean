import RollMenu.Choice
import RollMenu.ConfigError
import RollMenu.Limits

/-!
# Specs

The text after a placeholder's colon says what the placeholder offers. There are two
built-in formats: a range `low<=>high` of integers, and a list `value@label/value@!label`
whose exclamation mark makes an entry end the selection. A spec in no known format is
the same as none: the integers from 1 up to a default count.
-/

namespace RollMenu

/-- A way of writing down what a placeholder offers. -/
structure SpecFormat where
  name : String
  /-- Whether a spec is written in this format. -/
  accepts : String → Bool
  /-- What a spec offers. Nothing at all when it can not be read or holds no entry. -/
  offers : Limits → String → Option (List Offer)

/-! ## Ranges -/

namespace Range

/-- Splits at the first arrow `<=>`. -/
def splitArrow : List Char → Option (List Char × List Char)
  | '<' :: '=' :: '>' :: rest => some ([], rest)
  | c :: rest => (splitArrow rest).map fun parts => (c :: parts.1, parts.2)
  | [] => none

/-- The bounds of a range, both of them integers. -/
def bounds? (spec : String) : Option (Int × Int) := do
  let (low, high) ← splitArrow (Text.trim spec.toList)
  return (← Decimal.integer? (Text.trim low), ← Decimal.integer? (Text.trim high))

/-- How far a range may reach beyond its lower bound: one less than the cap, taken as a
signed word, so a cap past the signed words counts downwards. -/
def reach (cap : UInt64) : Int := Int.bmod ((cap.toNat - 1 : Nat) : Int) Decimal.wordBound

/-- The last integer of a range: the upper bound, raised to the lower one and cut off by
the cap. -/
def last (cap : UInt64) (low high : Int) : Int :=
  min (max high low) (Decimal.saturated (low + reach cap))

/-- The integers of a range in ascending order. -/
def integers (cap : UInt64) (low high : Int) : List Int :=
  (List.range (last cap low high - low + 1).toNat).map fun (i : Nat) => low + (i : Int)

/-- Ranges of integers, written `low<=>high`. -/
def format : SpecFormat where
  name := "range"
  accepts spec := (bounds? spec).isSome
  offers limits spec := (bounds? spec).map fun (low, high) =>
    (integers limits.rangeCap low high).map fun n => Offer.plain (Decimal.ofInt n)

end Range

/-! ## Lists -/

namespace Listing

/-- Separates the entries of a list. -/
def separator : Char := '/'

/-- An entry is a value and its label around an `@`, or else one text that is both. An
exclamation mark in front of a longer label marks a direct choice and is not shown. -/
def entry (text : List Char) : Offer :=
  match text.splitOn '@' with
  | [value@(_ :: _), '!' :: label@(_ :: _)] =>
    { value := String.ofList value, label := String.ofList label, direct := true }
  | [value@(_ :: _), label@(_ :: _)] =>
    { value := String.ofList value, label := String.ofList label }
  | _ => Offer.plain (String.ofList text)

/-- The entries of a list that are not blank, out of the first `cap` ones. -/
def entries (cap : UInt64) (spec : String) : List (List Char) :=
  ((spec.toList.splitOn separator).take cap.toNat).filter fun text => !decide (Text.Blank text)

/-- Lists of values, written with slashes. -/
def format : SpecFormat where
  name := "list"
  accepts spec := spec.toList.contains separator
  offers limits spec :=
    match entries limits.listCap spec with
    | [] => none
    | texts => some (texts.map entry)

end Listing

/-! ## Choosing a format -/

namespace Spec

/-- The formats that every template may use, in the order in which they are tried. -/
def builtin : List SpecFormat := [Range.format, Listing.format]

/-- What a placeholder without a usable spec offers. -/
def defaultOffers (limits : Limits) : List Offer :=
  (List.range limits.defaultChoices.toNat).map fun i => Offer.plain (i + 1).repr

/-- The choices that a placeholder, written `expression`, has by its spec. The first format
that accepts the spec reads it. The result may be empty when a format or the default
count allows that. -/
def choices (formats : List SpecFormat) (limits : Limits) (expression : String)
    (spec : Option String) : Except ConfigError (List Choice) :=
  match spec.bind fun text =>
      (formats.find? (·.accepts text)).map fun f => f.offers limits text with
  | none => .ok (Choice.number (defaultOffers limits))
  | some none => .error (.noChoice expression)
  | some (some offers) => .ok (Choice.number offers)

end Spec

end RollMenu
