import RollMenu.Dice.Evaluator

/-!
# Roll engines

An engine checks expressions when a message is configured and rolls them when a selection
is complete. Dice have memory in their random source, so a roll also gives the engine's
next state; checking leaves no trace.
-/

namespace RollMenu

/-- A roll engine with state `ε`. -/
structure Engine (ε : Type) where
  /-- The problem of an expression, or nothing if it can be rolled. -/
  complaint : String → Option String
  roll : String → ε → Except RollError RollResult × ε

/-- The dice evaluator as an engine. -/
def Dice.engine {σ : Type} (face : Dice.FaceSource σ) : Engine σ where
  complaint := Dice.complaint
  roll := Dice.roll face

end RollMenu
