import Mathlib.Data.List.Basic
import RollMenu.Proofs.Codecs
import RollMenu.Store.File

/-!
# Files that are cut off

Files are not written in one step. A write that is interrupted leaves the front of a file, and
nothing marks it as incomplete. It is the format that has to tell.

It does, for a reason that has nothing to do with what is written: every reader stops where its
value ends and never asks whether more follows. So what a front of a file reads as, the whole file
reads as too, with everything that was cut off left over. But of a whole file nothing is left over,
since what is written reads back. Hence the front of a file reads as nothing at all.

`SelfDelimiting` is this property of a reader. Readers that are put together have it from their
parts, with no condition on the values.
-/

namespace RollMenu

namespace Codec

variable {α β : Type}

/-- A reader that finds the same in a file whatever is appended to it, and leaves that behind. -/
def SelfDelimiting (read : Bytes → Option (α × Bytes)) : Prop :=
  ∀ ⦃bytes a rest⦄, read bytes = some (a, rest) →
    ∀ more, read (bytes ++ more) = some (a, rest ++ more)

/-- **Two readers in a row.** The second one starts where the first one has stopped. -/
theorem SelfDelimiting.bind {read : Bytes → Option (α × Bytes)}
    {next : α → Bytes → Option (β × Bytes)} (hread : SelfDelimiting read)
    (hnext : ∀ a, SelfDelimiting (next a)) :
    SelfDelimiting fun bytes => (read bytes).bind fun x => next x.1 x.2 := by
  intro bytes b rest h more
  obtain ⟨⟨a, between⟩, ha, hb⟩ := Option.bind_eq_some_iff.mp h
  dsimp only
  rw [hread ha more]
  exact hnext a hb more

/-- A value that does not depend on the file. -/
theorem selfDelimiting_const (found : Option α) :
    SelfDelimiting fun bytes => found.bind fun a => some (a, bytes) := by
  intro bytes a rest h more
  obtain ⟨b, rfl, hb⟩ := Option.bind_eq_some_iff.mp h
  obtain ⟨rfl, rfl⟩ := Prod.mk.inj (Option.some.inj hb)
  rfl

theorem SelfDelimiting.map {read : Bytes → Option (α × Bytes)} (hread : SelfDelimiting read)
    (f : α → β) : SelfDelimiting fun bytes => (read bytes).map fun x => (f x.1, x.2) := by
  intro bytes b rest h more
  obtain ⟨⟨a, left⟩, ha, hb⟩ := Option.map_eq_some_iff.mp h
  obtain ⟨rfl, rfl⟩ := Prod.mk.inj hb
  dsimp only
  rw [hread ha more]
  rfl

/-! ## Numbers -/

theorem selfDelimiting_readLittleEndian (width : Nat) :
    SelfDelimiting (readLittleEndian width) := by
  induction width with
  | zero =>
    intro bytes n rest h more
    obtain ⟨rfl, rfl⟩ := Prod.mk.inj (Option.some.inj h)
    rfl
  | succ width ih =>
    intro bytes n rest h more
    cases bytes with
    | nil => cases h
    | cons byte bytes => exact (ih.map fun n => byte.toNat + 256 * n) h more

/-- **The first byte of a number says how many follow.** -/
theorem selfDelimiting_readNumber (widest : Nat) : SelfDelimiting (readNumber widest) := by
  intro bytes n rest h more
  cases bytes with
  | nil => cases h
  | cons mark bytes =>
    simp only [readNumber, List.cons_append] at h ⊢
    by_cases hsmall : mark < 251
    · rw [if_pos hsmall] at h ⊢
      obtain ⟨rfl, rfl⟩ := Prod.mk.inj (Option.some.inj h)
      rfl
    · rw [if_neg hsmall] at h ⊢
      generalize (if mark = 0xfb then 2 else if mark = 0xfc then 4 else 8) = width at h ⊢
      split at h
      · rename_i hfits
        rw [if_pos hfits]
        exact selfDelimiting_readLittleEndian width h more
      · cases h

theorem selfDelimiting_word : SelfDelimiting word.read :=
  (selfDelimiting_readNumber 8).map UInt64.ofNat

theorem selfDelimiting_oneOf [BEq α] (all : List α) : SelfDelimiting (oneOf all).read :=
  (selfDelimiting_readNumber 4).bind fun i => selfDelimiting_const all[i]?

/-! ## Texts, options and lists -/

/-- So many bytes are taken as a text or, where there are fewer, nothing is. -/
theorem selfDelimiting_bytes (size : Nat) :
    SelfDelimiting fun bytes => if bytes.length < size then none
      else (String.fromUTF8? ⟨(bytes.take size).toArray⟩).bind fun s =>
        some (s, bytes.drop size) := by
  intro bytes s rest h more
  dsimp only at h ⊢
  split at h
  · cases h
  · rename_i henough
    have hle : size ≤ bytes.length := Nat.le_of_not_lt henough
    have henough' : ¬ (bytes ++ more).length < size := by
      rw [List.length_append]
      omega
    obtain ⟨s', hs', hrest⟩ := Option.bind_eq_some_iff.mp h
    obtain ⟨rfl, rfl⟩ := Prod.mk.inj (Option.some.inj hrest)
    rw [if_neg henough', List.take_append_of_le_length hle, List.drop_append_of_le_length hle, hs']
    rfl

theorem selfDelimiting_text : SelfDelimiting text.read :=
  (selfDelimiting_readNumber 8).bind selfDelimiting_bytes

theorem selfDelimiting_optional {c : Codec α} (hc : SelfDelimiting c.read) :
    SelfDelimiting (optional c).read := by
  intro bytes a rest h more
  simp only [optional] at h ⊢
  split at h
  · obtain ⟨rfl, rfl⟩ := Prod.mk.inj (Option.some.inj h)
    rfl
  · exact (hc.map some) h more
  · cases h

/-- As many values are read as before, each of them from where the one before it has ended. -/
theorem selfDelimiting_readMany {c : Codec α} (hc : SelfDelimiting c.read) (count : Nat) :
    SelfDelimiting (readMany c count) := by
  induction count with
  | zero => exact selfDelimiting_const (some [])
  | succ count ih =>
    exact hc.bind fun first => ih.bind fun more => selfDelimiting_const (some (first :: more))

theorem selfDelimiting_list {c : Codec α} (hc : SelfDelimiting c.read) :
    SelfDelimiting (list c).read :=
  (selfDelimiting_readNumber 8).bind fun count => selfDelimiting_readMany hc count

/-! ## Records -/

theorem selfDelimiting_pair {c : Codec α} {d : Codec β} (hc : SelfDelimiting c.read)
    (hd : SelfDelimiting d.read) : SelfDelimiting (pair c d).read :=
  hc.bind fun a => hd.bind fun b => selfDelimiting_const (some (a, b))

theorem selfDelimiting_convert {c : Codec α} (hc : SelfDelimiting c.read) (parts : β → α)
    (make : α → β) : SelfDelimiting (convert c parts make).read :=
  hc.map make

/-- **What is cut off of a value that reads back reads as nothing.** -/
theorem read_eq_none_of_prefix {c : Codec α} {a : α} {torn : Bytes}
    (hc : SelfDelimiting c.read) (ha : c.Restores a) (hfront : torn <+: c.write a)
    (hne : torn ≠ c.write a) : c.read torn = none := by
  obtain ⟨more, hmore⟩ := hfront
  refine Option.eq_none_iff_forall_ne_some.mpr fun ⟨b, rest⟩ hread => hne ?_
  -- the whole file would leave what was cut off, but it leaves nothing
  have hwhole := ha.read_write
  rw [← hmore, hc hread more] at hwhole
  have hleft : rest ++ more = [] := (Prod.mk.inj (Option.some.inj hwhole)).2
  rw [← hmore, (List.append_eq_nil_iff.mp hleft).2, List.append_nil]

/-- What reads back takes some room, unless a value is read out of nothing. -/
theorem Restores.write_ne_nil {c : Codec α} {a : α} (ha : c.Restores a)
    (hempty : c.read [] = none) : c.write a ≠ [] := by
  intro hnil
  have hread := ha.read_write
  rw [hnil, hempty] at hread
  cases hread

end Codec

/-! ## Stored records -/

theorem DisplayStyle.selfDelimiting : Codec.SelfDelimiting DisplayStyle.codec.read :=
  Codec.selfDelimiting_convert (Codec.selfDelimiting_pair (Codec.selfDelimiting_oneOf _)
    (Codec.selfDelimiting_optional Codec.selfDelimiting_text)) _ _

theorem Config.selfDelimiting : Codec.SelfDelimiting Config.codec.read := by
  refine Codec.selfDelimiting_convert ?_ _ _
  refine Codec.selfDelimiting_pair Codec.selfDelimiting_text ?_
  refine Codec.selfDelimiting_pair (Codec.selfDelimiting_optional Codec.selfDelimiting_word) ?_
  refine Codec.selfDelimiting_pair Codec.selfDelimiting_text ?_
  refine Codec.selfDelimiting_pair (Codec.selfDelimiting_oneOf _) ?_
  exact Codec.selfDelimiting_pair (Codec.selfDelimiting_oneOf _) DisplayStyle.selfDelimiting

theorem Progress.selfDelimiting : Codec.SelfDelimiting Progress.codec.read :=
  Codec.selfDelimiting_convert (Codec.selfDelimiting_pair
    (Codec.selfDelimiting_list Codec.selfDelimiting_text)
    (Codec.selfDelimiting_optional Codec.selfDelimiting_text)) _ _

/-! ## Files -/

namespace FileStore

variable {α : Type} {s s' : FileStore} {path : Path} {codec : Codec α} {a : α} {bytes : Bytes}

/-- A store in which one file has lost everything behind its first bytes. -/
def cutOff (s : FileStore) (path : Path) (size : Nat) : FileStore :=
  match s.directory.at? path with
  | some (.file bytes) => ⟨s.directory.put path (.file (bytes.take size))⟩
  | _ => s

theorem at?_cutOff (hpath : path ≠ []) (h : s.directory.at? path = some (.file bytes))
    (size : Nat) :
    (s.cutOff path size).directory.at? path = some (.file (bytes.take size)) := by
  simp only [cutOff, h]
  exact Directory.at?_put_self _ _ hpath

/-- What is saved is the whole content of its file. -/
theorem at?_of_save (hpath : path ≠ []) (h : s.save path codec a = .ok s') :
    s'.directory.at? path = some (.file (codec.write a)) := by
  unfold save at h
  split at h
  · cases h
  · rename_i directory hwrite
    obtain rfl := Except.ok.inj h
    rw [Directory.eq_put_of_write hwrite]
    exact Directory.at?_put_self _ _ hpath

/-- **The file that a save leaves loads as a whole, and cut off anywhere it is refused.** -/
theorem load_cutOff_of_save (hpath : path ≠ []) (hcodec : Codec.SelfDelimiting codec.read)
    (hempty : codec.read [] = none) (ha : codec.Restores a) (h : s.save path codec a = .ok s') :
    ∃ bytes, s'.directory.at? path = some (.file bytes) ∧ bytes ≠ [] ∧
      s'.load path codec = .ok (some a) ∧ ∀ size < bytes.length,
        (s'.cutOff path size).load path codec = .error .serialization := by
  have hfile := at?_of_save hpath h
  refine ⟨codec.write a, hfile, ha.write_ne_nil hempty, ?_, fun size hsize => ?_⟩
  · rw [load_of_at? codec hfile, ha.read_write]
    rfl
  · have hne : (codec.write a).take size ≠ codec.write a := by
      intro he
      have hlength := congrArg List.length he
      rw [List.length_take] at hlength
      omega
    rw [load_of_at? codec (at?_cutOff hpath hfile size),
      Codec.read_eq_none_of_prefix hcodec ha (List.take_prefix _ _) hne]
    rfl

/--
**A torn file is never mistaken for data.** Where a configuration or a selection in progress is
saved, its file is not empty and loads as what was saved. Cut off behind any number of bytes that
is not all of them, down to none, it does not load: neither as another record nor as a missing
one, but with the error that the file does not hold what it should. All sizes are machine words.
-/
theorem load_eq_error_of_torn :
    (∀ (s s' : FileStore) (id : ConfigId) (config : Config), config.Storable →
      Store.saveConfig s id config = .ok s' →
        ∃ bytes, s'.directory.at? (configPath id) = some (.file bytes) ∧ bytes ≠ [] ∧
          Store.loadConfig s' id = .ok (some config) ∧ ∀ size < bytes.length,
            Store.loadConfig (s'.cutOff (configPath id) size) id = .error .serialization) ∧
      ∀ (s s' : FileStore) (message : UInt64) (p : Progress), p.Storable →
        Store.saveProgress s message p = .ok s' →
          ∃ bytes, s'.directory.at? (progressPath message) = some (.file bytes) ∧ bytes ≠ [] ∧
            Store.loadProgress s' message = .ok (some p) ∧ ∀ size < bytes.length,
              Store.loadProgress (s'.cutOff (progressPath message) size) message =
                .error .serialization := by
  constructor
  · intro s s' id config hstorable hsave
    exact load_cutOff_of_save (List.cons_ne_nil _ _) Config.selfDelimiting rfl
      (Config.restores hstorable) hsave
  · intro s s' message p hstorable hsave
    exact load_cutOff_of_save (List.cons_ne_nil _ _) Progress.selfDelimiting rfl
      (Progress.restores hstorable) hsave

/-- Records that end in an empty text, whose file lacks nothing but a length when its last byte is
gone. -/
theorem load_eq_error_of_torn_empty_texts :
    let s : FileStore := ⟨{ entries := [([configFolder], .folder), ([progressFolder], .folder)] }⟩
    let config : Config := { template := "", displayStyle := { color := some "" } }
    let p : Progress := { selections := ["", "é"], lock := some "" }
    ∃ s₁ s₂ : FileStore, config.Storable ∧ Store.saveConfig s ⟨7⟩ config = .ok s₁ ∧
      s₁.directory.at? (configPath ⟨7⟩) = some (.file [0, 0, 2, 0x65, 0x6e, 0, 1, 1, 1, 0]) ∧
      (∀ size < 10, Store.loadConfig (s₁.cutOff (configPath ⟨7⟩) size) ⟨7⟩ =
        .error .serialization) ∧
      p.Storable ∧ Store.saveProgress s 7 p = .ok s₂ ∧
      s₂.directory.at? (progressPath 7) = some (.file [2, 0, 2, 0xc3, 0xa9, 1, 0]) ∧
      ∀ size < 7, Store.loadProgress (s₂.cutOff (progressPath 7) size) 7 =
        .error .serialization := by
  intro s config p
  have hconfig : config.Storable := ⟨by decide, by decide, by simp [DisplayStyle.Storable, config]⟩
  have hp : p.Storable := ⟨by decide, by decide, by simp [p]⟩
  obtain ⟨bytes, hbytes, -, -, htorn⟩ := load_eq_error_of_torn.1 s _ ⟨7⟩ config hconfig rfl
  obtain ⟨bytes', hbytes', -, -, htorn'⟩ := load_eq_error_of_torn.2 s _ 7 p hp rfl
  obtain rfl : bytes = [0, 0, 2, 0x65, 0x6e, 0, 1, 1, 1, 0] :=
    Entry.file.inj (Option.some.inj (hbytes.symm.trans rfl))
  obtain rfl : bytes' = [2, 0, 2, 0xc3, 0xa9, 1, 0] :=
    Entry.file.inj (Option.some.inj (hbytes'.symm.trans rfl))
  exact ⟨_, _, hconfig, rfl, hbytes, htorn, hp, rfl, hbytes', htorn'⟩

end FileStore

end RollMenu
