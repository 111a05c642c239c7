import RollMenu.Store.Binary

/-!
# Directories

What a directory on a disk holds: files and folders by their paths below it. The
operations are those that storing records takes, and they fail where a path leads
through a file, into a folder that is not there, or to a folder in place of a file.
-/

namespace RollMenu

/-- The names that lead from a directory to something in it. -/
abbrev Path := List String

/-- What stands at a path. -/
inductive Entry where
  | file (bytes : Bytes)
  | folder
  deriving DecidableEq, Repr

/-- A directory, as what stands at its paths. Each path occurs once at most. -/
structure Directory where
  entries : List (Path × Entry) := []
  deriving DecidableEq, Repr

namespace Directory

/-- What stands at a path. The empty path is the directory itself. -/
def at? (d : Directory) (path : Path) : Option Entry :=
  if path = [] then some .folder
  else (d.entries.find? fun entry => entry.1 == path).map Prod.snd

/-- Takes away what stands at a path. -/
def erase (d : Directory) (path : Path) : Directory :=
  { entries := d.entries.filter fun entry => entry.1 != path }

/-- Puts something at a path in place of what was there. -/
def put (d : Directory) (path : Path) (entry : Entry) : Directory :=
  { entries := (path, entry) :: (d.erase path).entries }

@[simp] theorem at?_erase_self (d : Directory) {path : Path} (h : path ≠ []) :
    (d.erase path).at? path = none := by
  simp [at?, erase, h]

theorem at?_erase_of_ne (d : Directory) {path other : Path} (h : other ≠ path) :
    (d.erase path).at? other = d.at? other := by
  simp only [at?, erase, List.find?_filter]
  congr 3
  funext entry
  by_cases he : entry.1 = other <;> simp [he, h]

theorem at?_put_self (d : Directory) {path : Path} (entry : Entry) (h : path ≠ []) :
    (d.put path entry).at? path = some entry := by
  simp [at?, put, h]

theorem at?_put_of_ne (d : Directory) {path other : Path} (entry : Entry) (h : other ≠ path) :
    (d.put path entry).at? other = d.at? other := by
  rw [← d.at?_erase_of_ne h]
  simp [at?, put, Ne.symm h]

/-- Whether something is a file. -/
def isFile : Option Entry → Bool
  | some (.file _) => true
  | _ => false

/-- Whether a path leads through a file. -/
def throughFile (d : Directory) (path : Path) : Bool :=
  (List.range path.length).any fun n => isFile (d.at? (path.take n))

/-- Why a path can not be used. -/
inductive Failure where
  /-- The path leads through a file, or to a folder where a file is meant. -/
  | notAFile
  /-- The folder that the path leads into is not there. -/
  | noFolder
  /-- A file stands where a folder is meant. -/
  | notAFolder
  deriving DecidableEq, Repr

/-- The bytes of a file, or nothing if there is none. -/
def read (d : Directory) (path : Path) : Except Failure (Option Bytes) :=
  match d.at? path with
  | some (.file bytes) => .ok (some bytes)
  | some .folder => .error .notAFile
  | none => if d.throughFile path then .error .notAFile else .ok none

/-- Writes a file, new or in place of an older one. -/
def write (d : Directory) (path : Path) (bytes : Bytes) : Except Failure Directory :=
  match d.at? path with
  | some (.file _) => .ok (d.put path (.file bytes))
  | some .folder => .error .notAFile
  | none =>
    if d.at? path.dropLast = some .folder then .ok (d.put path (.file bytes))
    else .error .noFolder

/-- A write that goes well puts the file in its place and does nothing else. -/
theorem eq_put_of_write {d d' : Directory} {path : Path} {bytes : Bytes}
    (h : d.write path bytes = .ok d') : d' = d.put path (.file bytes) := by
  unfold write at h
  split at h
  · exact (Except.ok.inj h).symm
  · cases h
  · split at h
    · exact (Except.ok.inj h).symm
    · cases h

/-- Removes a file. It need not be there. -/
def remove (d : Directory) (path : Path) : Except Failure Directory :=
  match d.at? path with
  | some (.file _) => .ok (d.erase path)
  | some .folder => .error .notAFile
  | none => if d.throughFile path then .error .notAFile else .ok d

/-- Makes the folders that lead on from `base` along `names`, where they are not there yet. -/
def makeFoldersFrom (d : Directory) (base : Path) : List String → Except Failure Directory
  | [] => .ok d
  | name :: names =>
    let path := base ++ [name]
    match d.at? path with
    | some (.file _) => .error .notAFolder
    | some .folder => d.makeFoldersFrom path names
    | none => (d.put path .folder).makeFoldersFrom path names

/-- Makes a folder with all that lead to it, where they are not there yet. -/
def makeFolders (d : Directory) (path : Path) : Except Failure Directory :=
  d.makeFoldersFrom [] path

/-- The names in a folder, in no particular order. -/
def names (d : Directory) (folder : String) : List String :=
  d.entries.filterMap fun entry => match entry.1 with
    | [first, name] => if first = folder then some name else none
    | _ => none

end Directory

end RollMenu
