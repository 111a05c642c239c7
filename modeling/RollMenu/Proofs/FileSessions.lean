import Mathlib
import RollMenu.Proofs.Codecs
import RollMenu.Proofs.FileNames
import RollMenu.Store.Memory

/-!
# The two stores answer alike

A store in a directory is meant to be the store in memory, except that it survives: it is
opened, used and opened again, and whatever is saved is there. The relation between the
two is that both folders are there and that each file holds exactly the bytes that are
written for what the memory has under its key, with no file where the memory has nothing.
One call keeps it and gets the same reply from both stores, opening the directory keeps
it and changes nothing, and so sessions of calls get the replies that the memory gives
to all the calls in a row.
-/

namespace RollMenu

/-! ## Calls to a store -/

/-- A call to a store. -/
inductive StoreCall where
  | saveConfig (id : ConfigId) (config : Config)
  | loadConfig (id : ConfigId)
  | saveProgress (message : UInt64) (p : Progress)
  | loadProgress (message : UInt64)
  | deleteProgress (message : UInt64)
  deriving DecidableEq, Repr

/-- What a call gives back. -/
inductive StoreReply where
  | done
  | config (found : Option Config)
  | progress (found : Option Progress)
  deriving DecidableEq, Repr

namespace StoreCall

variable {σ : Type} [Store σ]

/-- The contents of a store after a change. Where it fails they stay. -/
def settle (s : σ) : Except StoreError σ → Except StoreError StoreReply × σ
  | .ok changed => (.ok .done, changed)
  | .error e => (.error e, s)

/-- Makes a call: the reply, and the store after it. -/
def make (s : σ) : StoreCall → Except StoreError StoreReply × σ
  | saveConfig id config => settle s (Store.saveConfig s id config)
  | loadConfig id => ((Store.loadConfig s id).map .config, s)
  | saveProgress message p => settle s (Store.saveProgress s message p)
  | loadProgress message => ((Store.loadProgress s message).map .progress, s)
  | deleteProgress message => settle s (Store.deleteProgress s message)

/-- Makes calls one after another. -/
def makeAll (s : σ) : List StoreCall → List (Except StoreError StoreReply) × σ
  | [] => ([], s)
  | call :: calls =>
    let first := call.make s
    let rest := makeAll first.2 calls
    (first.1 :: rest.1, rest.2)

theorem makeAll_append (s : σ) (calls more : List StoreCall) :
    (makeAll s (calls ++ more)).1 =
      (makeAll s calls).1 ++ (makeAll (makeAll s calls).2 more).1 := by
  induction calls generalizing s with
  | nil => rfl
  | cons call calls ih => simp only [List.cons_append, makeAll, ih]

/-- What is saved has sizes that a machine word can count. -/
def Storable : StoreCall → Prop
  | saveConfig _ config => config.Storable
  | saveProgress _ p => p.Storable
  | _ => True

end StoreCall

/-- The replies to sessions of calls, each of which opens the directory anew. -/
def FileStore.sessions (d : Directory) :
    List (List StoreCall) → Except StoreError (List (Except StoreError StoreReply))
  | [] => .ok []
  | calls :: later =>
    match ofDirectory d with
    | (.error e, _) => .error e
    | (.ok (), s) =>
      let session := StoreCall.makeAll s calls
      (sessions session.2.directory later).map fun replies => session.1 ++ replies

/-! ## Tables in folders -/

/-- A folder holds a table: the files named for its keys are what is written of its values. -/
structure Directory.Holds {κ α : Type} (d : Directory) (folder : String) (name : κ → String)
    (codec : Codec α) (table : κ → Option α) : Prop where
  folder_eq : d.at? [folder] = some .folder
  file_eq : ∀ k, d.at? [folder, name k] = (table k).map fun a => .file (codec.write a)
  restores : ∀ k, ∀ a ∈ table k, codec.Restores a

namespace Directory.Holds

variable {κ α : Type} {s : FileStore} {folder : String} {name : κ → String} {codec : Codec α}
  {table : κ → Option α}

/-- A folder holds its table also after a change of another file. -/
theorem frame {d d' : Directory} {path : Path} (h : d.Holds folder name codec table)
    (hfolder : path ≠ [folder]) (hfile : ∀ k, path ≠ [folder, name k])
    (heq : ∀ other, other ≠ path → d'.at? other = d.at? other) :
    d'.Holds folder name codec table where
  folder_eq := (heq _ hfolder.symm).trans h.folder_eq
  file_eq k := (heq _ (hfile k).symm).trans (h.file_eq k)
  restores := h.restores

theorem throughFile_eq (h : s.directory.Holds folder name codec table) (file : String) :
    s.directory.throughFile [folder, file] = false := by
  have hroot : s.directory.at? [] = some .folder := rfl
  have hfolder := h.folder_eq
  simp [throughFile, List.range_succ, isFile, hroot, hfolder]

/-- **A load reads the table.** -/
theorem load_eq (h : s.directory.Holds folder name codec table) (k : κ) :
    s.load [folder, name k] codec = .ok (table k) := by
  have hfile := h.file_eq k
  cases hk : table k with
  | none =>
    rw [hk, Option.map_none] at hfile
    have hread : s.directory.read [folder, name k] = .ok none := by
      simp only [read, hfile, h.throughFile_eq, Bool.false_eq_true, if_false]
    simp only [FileStore.load, hread]
  | some a =>
    rw [hk, Option.map_some] at hfile
    rw [FileStore.load_of_at? codec hfile, (h.restores k a hk).read_write]
    rfl

variable [DecidableEq κ]

/-- What stands in a folder after one file of it has changed. -/
theorem changed {d' : Directory} (h : s.directory.Holds folder name codec table)
    (hname : Function.Injective name) {k : κ} {value : Option α}
    (hvalue : ∀ a ∈ value, codec.Restores a)
    (hself : d'.at? [folder, name k] = value.map fun a => .file (codec.write a))
    (heq : ∀ other, other ≠ [folder, name k] → d'.at? other = s.directory.at? other) :
    d'.Holds folder name codec (MemoryStore.put table k value) where
  folder_eq := (heq [folder] (by simp)).trans h.folder_eq
  file_eq := by
    intro j
    by_cases hj : j = k
    · subst hj
      rw [MemoryStore.put_self, hself]
    · have hother : [folder, name j] ≠ [folder, name k] := by
        intro he
        exact hj (hname (List.head_eq_of_cons_eq (List.cons.inj he).2))
      rw [MemoryStore.put_of_ne table value hj, heq _ hother, h.file_eq]
  restores := by
    intro j a ha
    by_cases hj : j = k
    · subst hj
      rw [MemoryStore.put_self] at ha
      exact hvalue a ha
    · rw [MemoryStore.put_of_ne table value hj] at ha
      exact h.restores j a ha

/-- **A save changes the table at its key**, and no other file. -/
theorem save_eq (h : s.directory.Holds folder name codec table) (hname : Function.Injective name)
    (k : κ) {a : α} (ha : codec.Restores a) :
    ∃ s', s.save [folder, name k] codec a = .ok s' ∧
      s'.directory.Holds folder name codec (MemoryStore.put table k (some a)) ∧
      ∀ other, other ≠ [folder, name k] → s'.directory.at? other = s.directory.at? other := by
  have hwrite : s.directory.write [folder, name k] (codec.write a) =
      .ok (s.directory.put [folder, name k] (.file (codec.write a))) := by
    have hparent : s.directory.at? [folder, name k].dropLast = some .folder := h.folder_eq
    have hfile := h.file_eq k
    cases hk : table k with
    | none =>
      rw [hk, Option.map_none] at hfile
      simp only [write, hfile, hparent, if_true]
    | some b =>
      rw [hk, Option.map_some] at hfile
      simp only [write, hfile]
  have heq : ∀ other, other ≠ [folder, name k] →
      (s.directory.put [folder, name k] (.file (codec.write a))).at? other =
        s.directory.at? other := fun other hother => at?_put_of_ne _ _ hother
  refine ⟨⟨s.directory.put [folder, name k] (.file (codec.write a))⟩, ?_, ?_, heq⟩
  · simp only [FileStore.save, hwrite]
  · refine h.changed hname ?_ ?_ heq
    · intro b hb
      obtain rfl := Option.some.inj hb
      exact ha
    · exact at?_put_self _ _ (by simp)

/-- **A deletion empties the table at its key**, whether or not something is there. -/
theorem delete_eq (h : s.directory.Holds folder name codec table) (hname : Function.Injective name)
    (k : κ) :
    ∃ s', s.delete [folder, name k] = .ok s' ∧
      s'.directory.Holds folder name codec (MemoryStore.put table k none) ∧
      ∀ other, other ≠ [folder, name k] → s'.directory.at? other = s.directory.at? other := by
  have hfile := h.file_eq k
  cases hk : table k with
  | none =>
    rw [hk, Option.map_none] at hfile
    have hremove : s.directory.remove [folder, name k] = .ok s.directory := by
      simp only [remove, hfile, h.throughFile_eq, Bool.false_eq_true, if_false]
    refine ⟨s, ?_, ?_, fun _ _ => rfl⟩
    · simp only [FileStore.delete, hremove]
    · exact h.changed hname (by simp) hfile fun _ _ => rfl
  | some a =>
    rw [hk, Option.map_some] at hfile
    have hremove : s.directory.remove [folder, name k] =
        .ok (s.directory.erase [folder, name k]) := by
      simp only [remove, hfile]
    have heq : ∀ other, other ≠ [folder, name k] →
        (s.directory.erase [folder, name k]).at? other = s.directory.at? other :=
      fun other hother => at?_erase_of_ne _ hother
    refine ⟨⟨s.directory.erase [folder, name k]⟩, ?_, ?_, heq⟩
    · simp only [FileStore.delete, hremove]
    · exact h.changed hname (by simp) (at?_erase_self _ (by simp)) heq

end Directory.Holds

namespace FileStore

/-! ## The directory and the memory -/

variable {s : FileStore} {m : MemoryStore}

/-- The two folders of a store hold what a memory does. -/
structure Represents (s : FileStore) (m : MemoryStore) : Prop where
  configs : s.directory.Holds configFolder configName Config.codec m.configs
  progress : s.directory.Holds progressFolder progressName Progress.codec m.progress

theorem Represents.saveConfig (h : s.Represents m) (id : ConfigId) {config : Config}
    (hconfig : config.Storable) :
    ∃ s', Store.saveConfig s id config = .ok s' ∧
      s'.Represents { m with configs := MemoryStore.put m.configs id (some config) } := by
  obtain ⟨s', hs', hconfigs, hframe⟩ :=
    h.configs.save_eq configName_injective id (Config.restores hconfig)
  refine ⟨s', hs', hconfigs, h.progress.frame ?_ ?_ hframe⟩
  · simp
  · simp [configFolder, progressFolder]

theorem Represents.saveProgress (h : s.Represents m) (message : UInt64) {p : Progress}
    (hp : p.Storable) :
    ∃ s', Store.saveProgress s message p = .ok s' ∧
      s'.Represents { m with progress := MemoryStore.put m.progress message (some p) } := by
  obtain ⟨s', hs', hprogress, hframe⟩ :=
    h.progress.save_eq progressName_injective message (Progress.restores hp)
  refine ⟨s', hs', h.configs.frame ?_ ?_ hframe, hprogress⟩
  · simp
  · simp [configFolder, progressFolder]

theorem Represents.deleteProgress (h : s.Represents m) (message : UInt64) :
    ∃ s', Store.deleteProgress s message = .ok s' ∧
      s'.Represents { m with progress := MemoryStore.put m.progress message none } := by
  obtain ⟨s', hs', hprogress, hframe⟩ := h.progress.delete_eq progressName_injective message
  refine ⟨s', hs', h.configs.frame ?_ ?_ hframe, hprogress⟩
  · simp
  · simp [configFolder, progressFolder]

/-- **One call gets the same reply from both stores, and they go on holding the same.** -/
theorem Represents.make (h : s.Represents m) {call : StoreCall} (hcall : call.Storable) :
    (call.make s).1 = (call.make m).1 ∧ (call.make s).2.Represents (call.make m).2 := by
  cases call with
  | saveConfig id config =>
    obtain ⟨s', hs', hnext⟩ := h.saveConfig id hcall
    simp only [StoreCall.make, hs']
    exact ⟨rfl, hnext⟩
  | loadConfig id =>
    have hload : Store.loadConfig s id = .ok (m.configs id) := h.configs.load_eq id
    simp only [StoreCall.make, hload]
    exact ⟨rfl, h⟩
  | saveProgress message p =>
    obtain ⟨s', hs', hnext⟩ := h.saveProgress message hcall
    simp only [StoreCall.make, hs']
    exact ⟨rfl, hnext⟩
  | loadProgress message =>
    have hload : Store.loadProgress s message = .ok (m.progress message) :=
      h.progress.load_eq message
    simp only [StoreCall.make, hload]
    exact ⟨rfl, h⟩
  | deleteProgress message =>
    obtain ⟨s', hs', hnext⟩ := h.deleteProgress message
    simp only [StoreCall.make, hs']
    exact ⟨rfl, hnext⟩

/-- And so do any number of calls. -/
theorem Represents.makeAll (h : s.Represents m) {calls : List StoreCall}
    (hcalls : ∀ call ∈ calls, call.Storable) :
    (StoreCall.makeAll s calls).1 = (StoreCall.makeAll m calls).1 ∧
      (StoreCall.makeAll s calls).2.Represents (StoreCall.makeAll m calls).2 := by
  induction calls generalizing s m with
  | nil => exact ⟨rfl, h⟩
  | cons call calls ih =>
    obtain ⟨hcall, hrest⟩ := List.forall_mem_cons.mp hcalls
    obtain ⟨hreply, hnext⟩ := h.make hcall
    obtain ⟨hreplies, hlast⟩ := ih hnext hrest
    refine ⟨?_, hlast⟩
    rw [StoreCall.makeAll, StoreCall.makeAll, hreply, hreplies]

/-! ## Opening the directory -/

/-- A directory that can be opened, and then holds what a memory does. -/
def Opens (d : Directory) (m : MemoryStore) : Prop :=
  ∃ s, ofDirectory d = (.ok (), s) ∧ s.Represents m

/-- Opening the directory of a store again finds the store as it was left. -/
theorem Represents.opens (h : s.Represents m) : Opens s.directory m := by
  refine ⟨s, ?_, h⟩
  have hconfigs : s.directory.makeFolders [configFolder] = .ok s.directory := by
    simp only [Directory.makeFolders, Directory.makeFoldersFrom, List.nil_append,
      h.configs.folder_eq]
  have hprogress : s.directory.makeFolders [progressFolder] = .ok s.directory := by
    simp only [Directory.makeFolders, Directory.makeFoldersFrom, List.nil_append,
      h.progress.folder_eq]
  simp only [ofDirectory, hconfigs, hprogress]

/-- Opening an empty directory makes both folders and nothing in them. -/
theorem opens_empty : Opens {} {} := by
  refine ⟨⟨{ entries := [([progressFolder], .folder), ([configFolder], .folder)] }⟩, rfl, ?_, ?_⟩
  · refine ⟨rfl, ?_, by simp⟩
    intro id
    simp [Directory.at?]
  · refine ⟨rfl, ?_, by simp⟩
    intro message
    simp [Directory.at?]

/-- **Sessions on a directory get the replies of the memory to all calls in a row.** -/
theorem sessions_of_opens {d : Directory} (h : Opens d m) {sessions : List (List StoreCall)}
    (hcalls : ∀ calls ∈ sessions, ∀ call ∈ calls, call.Storable) :
    FileStore.sessions d sessions = .ok (StoreCall.makeAll m sessions.flatten).1 := by
  induction sessions generalizing d m with
  | nil => rfl
  | cons calls later ih =>
    obtain ⟨hfirst, hlater⟩ := List.forall_mem_cons.mp hcalls
    obtain ⟨s, hopen, hs⟩ := h
    obtain ⟨hreplies, hnext⟩ := hs.makeAll hfirst
    rw [FileStore.sessions, hopen, List.flatten_cons, StoreCall.makeAll_append, ← hreplies]
    simp only [ih hnext.opens hlater]
    rfl

/--
**The file store answers like the memory store.** Whatever is saved, loaded and deleted, and
however often the directory is opened anew in between, every reply is the one that the store
in memory gives in a single run, and no operation on a file ever fails. The directory is
empty at first, and all sizes are machine words.
-/
theorem sessions_eq_memory {sessions : List (List StoreCall)}
    (hcalls : ∀ calls ∈ sessions, ∀ call ∈ calls, call.Storable) :
    FileStore.sessions {} sessions =
      .ok (StoreCall.makeAll ({} : MemoryStore) sessions.flatten).1 :=
  sessions_of_opens opens_empty hcalls

/-- A shorter selection replaces a longer one, both survive that the directory is opened anew,
and what is not there can be deleted. -/
theorem sessions_eq_memory_reopened :
    FileStore.sessions {}
        [[.saveConfig ⟨7⟩ { template := "1d20+{Mod}" },
          .saveProgress 7 { selections := ["3", "d6"], lock := some "Zoë" },
          .saveProgress 7 { selections := ["x"] }],
        [],
        [.loadConfig ⟨7⟩, .loadConfig ⟨8⟩, .loadProgress 7, .deleteProgress 7, .deleteProgress 7,
          .loadProgress 7]] =
      .ok [.ok .done, .ok .done, .ok .done, .ok (.config (some { template := "1d20+{Mod}" })),
        .ok (.config none), .ok (.progress (some { selections := ["x"] })), .ok .done, .ok .done,
        .ok (.progress none)] := by
  have hconfig : Config.Storable { template := "1d20+{Mod}" } :=
    ⟨by decide, by decide, by simp [DisplayStyle.Storable]⟩
  have hlong : Progress.Storable { selections := ["3", "d6"], lock := some "Zoë" } :=
    ⟨by decide, by decide, by simp; decide⟩
  have hshort : Progress.Storable { selections := ["x"] } := ⟨by decide, by decide, by simp⟩
  rw [sessions_eq_memory (by simp [StoreCall.Storable, hconfig, hlong, hshort])]
  rfl

end FileStore

end RollMenu
