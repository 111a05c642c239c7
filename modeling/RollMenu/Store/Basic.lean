import RollMenu.Progress

/-!
# Stores

Where configurations and selections in progress are kept between clicks. A configuration
is stored once under an id of its own. A selection is stored under the number of the
message it is made on, again with every click.
-/

namespace RollMenu

/-- The id of a stored configuration. -/
structure ConfigId where
  bits : BitVec 128
  deriving DecidableEq, Repr

namespace ConfigId

/-- The id that no configuration has. -/
def zero : ConfigId := ⟨0⟩

/-- The hexadecimal digit at a place, counted from the left. -/
def digit (id : ConfigId) (place : Nat) : Char :=
  Nat.digitChar (id.bits.toNat >>> (4 * (31 - place)) % 16)

/-- The digits from one place up to another. -/
def digits (id : ConfigId) (first count : Nat) : List Char :=
  (List.range count).map fun i => id.digit (first + i)

/-- The written id: its hexadecimal digits in groups of 8, 4, 4, 4 and 12. -/
def text (id : ConfigId) : String :=
  String.ofList (['-'].intercalate
    [id.digits 0 8, id.digits 8 4, id.digits 12 4, id.digits 16 4, id.digits 20 12])

end ConfigId

/-- Why a store does not do what it is asked. -/
inductive StoreError where
  /-- A file does not hold what it should. -/
  | serialization
  /-- A file can not be accessed. -/
  | io (path : String)
  /-- The store broke down earlier on. -/
  | poisoned
  deriving DecidableEq, Repr

/-- The wording of a store error. -/
def StoreError.message : StoreError → String
  | serialization => "Serialization failed: the bytes are not those of a record"
  | io path => "Could not access '" ++ path ++ "': the file is not reachable as one"
  | poisoned => "Store lock was poisoned"

/-- The operations of a store with the contents `σ`. Where one fails, the contents stay. -/
class Store (σ : Type) where
  saveConfig : σ → ConfigId → Config → Except StoreError σ
  loadConfig : σ → ConfigId → Except StoreError (Option Config)
  saveProgress : σ → UInt64 → Progress → Except StoreError σ
  loadProgress : σ → UInt64 → Except StoreError (Option Progress)
  deleteProgress : σ → UInt64 → Except StoreError σ

end RollMenu
