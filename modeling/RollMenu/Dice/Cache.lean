/-!
# A cache of recent entries

A cache keeps the entries that were asked for most recently, up to its capacity. It is a
list in order of last use: a hit moves to the front, and what a full cache has to give
up for a new entry is at the back.
-/

namespace RollMenu.Dice

/-- Entries under their names, the most recently used one first. -/
structure Cache (α : Type) where
  capacity : Nat
  entries : List (String × α) := []
  deriving Repr

namespace Cache

variable {α : Type}

/-- Number of entries. -/
def size (c : Cache α) : Nat := c.entries.length

/-- Looks an entry up and moves it to the front. -/
def touch (c : Cache α) (name : String) : Option (α × Cache α) :=
  match c.entries.find? fun entry => entry.1 == name with
  | none => none
  | some entry =>
    some (entry.2, { c with entries := entry :: c.entries.eraseP fun e => e.1 == name })

/-- Puts an entry in front that is not there yet. The least recently used one leaves a full
cache. -/
def push (c : Cache α) (name : String) (value : α) : Cache α :=
  { c with entries := (name, value) :: c.entries.take (c.capacity - 1) }

end Cache

end RollMenu.Dice
