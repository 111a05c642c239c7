/-!
# Faces

Where the faces of the dice come from. A random source hands out a face for a number of
sides and is changed by that. The source used here draws 32-bit words: a word times the
number of sides, seen as a fixed-point number, has the face in its whole part, and a
second word settles the cases in which the fraction is too close to the next face.
-/

namespace RollMenu.Dice

/-- A random source with state `σ`: the face of one die of so many sides. -/
abbrev FaceSource (σ : Type) := Nat → σ → Nat × σ

/-- Words that are drawn one after another and start over at the end. -/
structure Words where
  words : Array UInt32
  /-- Number of words drawn so far. -/
  drawn : Nat := 0
  deriving DecidableEq, Repr, Inhabited

namespace Words

/-- The next word. No words at all are the same as zeros. -/
def next (w : Words) : Nat × Words :=
  ((w.words[w.drawn % w.words.size]?.getD 0).toNat, { w with drawn := w.drawn + 1 })

/-- The face of a die, counted from 1. -/
def face (sides : Nat) (w : Words) : Nat × Words :=
  let (first, w) := w.next
  let scaled := first * sides
  let whole := scaled / UInt32.size
  let fraction := scaled % UInt32.size
  if UInt32.size - sides < fraction then
    let (second, w) := w.next
    let carry := if UInt32.size ≤ fraction + second * sides / UInt32.size then 1 else 0
    (1 + whole + carry, w)
  else (1 + whole, w)

end Words

end RollMenu.Dice
