import RollMenu.Store.Basic

/-!
# The memory store

A store that is nothing but its contents, and whose operations never fail.
-/

namespace RollMenu

/-- What is stored under every id and for every message. -/
structure MemoryStore where
  configs : ConfigId → Option Config := fun _ => none
  progress : UInt64 → Option Progress := fun _ => none

namespace MemoryStore

/-- A table that differs from another one at a single key. -/
def put {κ α : Type} [DecidableEq κ] (table : κ → Option α) (key : κ) (value : Option α) :
    κ → Option α :=
  fun k => if k = key then value else table k

@[simp] theorem put_self {κ α : Type} [DecidableEq κ] (table : κ → Option α) (key : κ)
    (value : Option α) : put table key value key = value := by
  simp [put]

theorem put_of_ne {κ α : Type} [DecidableEq κ] (table : κ → Option α) {key k : κ}
    (value : Option α) (h : k ≠ key) : put table key value k = table k := by
  simp [put, h]

instance : Store MemoryStore where
  saveConfig s id config := .ok { s with configs := put s.configs id (some config) }
  loadConfig s id := .ok (s.configs id)
  saveProgress s message p := .ok { s with progress := put s.progress message (some p) }
  loadProgress s message := .ok (s.progress message)
  deleteProgress s message := .ok { s with progress := put s.progress message none }

end MemoryStore

end RollMenu
