import RollMenu.Menu

/-!
# Corner cases

Trying every selection takes exponentially long in the number of placeholders, so the
search follows only the choices that are likeliest to break an expression: the greatest
and the least integer, a written zero, everything that is no integer, and every direct
choice.
-/

namespace RollMenu.Validation

/-- The integer choices with their values, in order. -/
def numerics (choices : List Choice) : List (Int × Choice) :=
  choices.filterMap fun choice => choice.numeric?.map fun n => (n, choice)

/-- Of the greatest integers the last one. -/
def greatest (ns : List (Int × Choice)) : Option (Int × Choice) :=
  ns.foldl (fun best n => match best with
    | none => some n
    | some b => if b.1 ≤ n.1 then some n else some b) none

/-- Of the least integers the first one. -/
def least (ns : List (Int × Choice)) : Option (Int × Choice) :=
  ns.foldl (fun best n => match best with
    | none => some n
    | some b => if n.1 < b.1 then some n else some b) none

/-- Whether a choice is a corner case whatever else is offered. -/
def isSpecial (choice : Choice) : Bool :=
  Text.trim choice.value.toList == ['0'] || choice.numeric?.isNone || choice.direct

/-- The ids of the corner cases. -/
def cornerIds (choices : List Choice) : List String :=
  let ns := numerics choices
  ((greatest ns).toList ++ (least ns).toList).map (fun n => n.2.id)
    ++ (choices.filter isSpecial).map Choice.id

/-- The corner cases, in the order in which they are offered. -/
def corners (choices : List Choice) : List Choice :=
  let ids := cornerIds choices
  choices.filter fun choice => ids.contains choice.id

end RollMenu.Validation
