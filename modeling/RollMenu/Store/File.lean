import RollMenu.Store.Basic
import RollMenu.Store.Directory
import RollMenu.Store.Record

/-!
# The file store

A store in a directory, with one file for each configuration and for each message. A
missing file is a missing record. Everything else that keeps a file from being read
names its path.
-/

namespace RollMenu

/-- A directory that records are stored in. -/
structure FileStore where
  directory : Directory
  deriving DecidableEq, Repr

namespace FileStore

/-- The folder of the configurations. -/
def configFolder : String := "configs"

/-- The folder of the selections in progress. -/
def progressFolder : String := "states"

/-- Where a configuration is stored. -/
def configPath (id : ConfigId) : Path := [configFolder, id.text ++ ".bin"]

/-- Where the selection on a message is stored. -/
def progressPath (message : UInt64) : Path := [progressFolder, message.toNat.repr ++ ".bin"]

/-- The error that names a path. -/
def inaccessible (path : Path) : StoreError := .io ("/".intercalate path)

/-- Makes the folders of a store. What could be made stays also when the rest fails. -/
def ofDirectory (d : Directory) : Except StoreError Unit × FileStore :=
  match d.makeFolders [configFolder] with
  | .error _ => (.error (inaccessible [configFolder]), ⟨d⟩)
  | .ok d =>
    match d.makeFolders [progressFolder] with
    | .error _ => (.error (inaccessible [progressFolder]), ⟨d⟩)
    | .ok d => (.ok (), ⟨d⟩)

/-- Writes a record to its file. -/
def save {α : Type} (s : FileStore) (path : Path) (codec : Codec α) (a : α) :
    Except StoreError FileStore :=
  match s.directory.write path (codec.write a) with
  | .error _ => .error (inaccessible path)
  | .ok directory => .ok { directory }

/-- Reads the record of a file. What follows it in the file does not matter. -/
def load {α : Type} (s : FileStore) (path : Path) (codec : Codec α) :
    Except StoreError (Option α) :=
  match s.directory.read path with
  | .error _ => .error (inaccessible path)
  | .ok none => .ok none
  | .ok (some bytes) =>
    match codec.read bytes with
    | none => .error .serialization
    | some (a, _) => .ok (some a)

/-- A load depends on its file alone, if there is one. -/
theorem load_of_at? {α : Type} {s : FileStore} {path : Path} {bytes : Bytes} (codec : Codec α)
    (h : s.directory.at? path = some (.file bytes)) :
    s.load path codec =
      (codec.read bytes).elim (.error .serialization) fun x => .ok (some x.1) := by
  have hread : s.directory.read path = .ok (some bytes) := by
    simp only [Directory.read, h]
  simp only [load, hread]
  cases codec.read bytes <;> rfl

/-- Removes the file of a record. -/
def delete (s : FileStore) (path : Path) : Except StoreError FileStore :=
  match s.directory.remove path with
  | .error _ => .error (inaccessible path)
  | .ok directory => .ok { directory }

instance : Store FileStore where
  saveConfig s id config := s.save (configPath id) Config.codec config
  loadConfig s id := s.load (configPath id) Config.codec
  saveProgress s message p := s.save (progressPath message) Progress.codec p
  loadProgress s message := s.load (progressPath message) Progress.codec
  deleteProgress s message := s.delete (progressPath message)

end FileStore

end RollMenu
