import RollMenu.Text.Blank
import RollMenu.Text.Decimal

/-!
# Choices

What a placeholder offers. A spec says which values there are and how they are labelled;
numbering them gives each the id by which its button refers to it.
-/

namespace RollMenu

/-- One entry of a spec. -/
structure Offer where
  /-- Replaces the placeholder as it stands. -/
  value : String
  /-- What the button says. -/
  label : String
  /-- Whether selecting it ends the selection at once. -/
  direct : Bool := false
  deriving DecidableEq, Repr

/-- An offer that is its own label. -/
def Offer.plain (value : String) : Offer := { value, label := value }

/-- One button's worth of a placeholder. -/
structure Choice where
  value : String
  label : String
  id : String
  direct : Bool
  /-- Index of the placeholder that is asked for afterwards, if there is one. -/
  next : Option Nat
  deriving DecidableEq, Repr

namespace Choice

/-- The id of the choice at a position, counted from 1. -/
def idAt (position : Nat) : String := "id" ++ position.repr

/-- Numbers offers from 1 on. -/
def number (offers : List Offer) : List Choice :=
  offers.zipIdx.map fun (offer, i) =>
    { value := offer.value, label := offer.label, id := idAt (i + 1), direct := offer.direct,
      next := none }

/-- The value as an integer, if it is written as one. -/
def numeric? (choice : Choice) : Option Int :=
  Decimal.integer? (Text.trim choice.value.toList)

end Choice

end RollMenu
