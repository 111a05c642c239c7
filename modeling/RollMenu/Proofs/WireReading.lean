import RollMenu.Proofs.Compile
import RollMenu.Proofs.WireRoundTrip

/-!
# What ids are read as

A client may send any text as an id. What is read from it was split at the separators, so
no part has one left in it, and an empty field never makes a single empty selection. So
`Separable` is not only what it takes for an id to read back as it was: whatever is read is
separable, and an id that is not reads back as something else or not at all.

`ReadAs` lists how a text is read in either layout, so no later proof opens the reader.
-/

namespace RollMenu.WireId

/-! ## The parts of a split text -/

theorem not_mem_of_mem_splitOn {separator : Char} {cs part : List Char}
    (h : part ∈ cs.splitOn separator) : separator ∉ part := by
  induction cs generalizing part with
  | nil =>
    rw [List.splitOn_nil, List.mem_singleton] at h
    rw [h]
    exact List.not_mem_nil
  | cons c cs ih =>
    rw [List.splitOn_cons_eq_if_modifyHead] at h
    split at h
    · rcases List.mem_cons.mp h with rfl | h
      · exact List.not_mem_nil
      · exact ih h
    · rename_i hc
      -- the character goes in front of the first part
      obtain ⟨first, rest, hsplit⟩ := List.exists_cons_of_ne_nil (List.splitOn_ne_nil separator cs)
      rw [hsplit] at h ih
      rcases List.mem_cons.mp h with rfl | h
      · have hfirst := ih List.mem_cons_self
        simpa [hfirst] using fun heq => hc (by rw [heq, beq_self_eq_true])
      · exact ih (List.mem_cons_of_mem first h)

variable {separator : Char} {text part : String}

theorem not_mem_of_mem_splitAt (h : part ∈ splitAt separator text) : separator ∉ part.toList := by
  obtain ⟨cs, hcs, rfl⟩ := List.mem_map.mp h
  rw [String.toList_ofList]
  exact not_mem_of_mem_splitOn hcs

theorem mem_of_mem_splitAt {c : Char} (h : part ∈ splitAt separator text) (hc : c ∈ part.toList) :
    c ∈ text.toList := by
  obtain ⟨cs, hcs, rfl⟩ := List.mem_map.mp h
  rw [String.toList_ofList] at hc
  exact mem_of_mem_splitOn hcs hc

/-- Joining undoes splitting. -/
theorem intercalate_splitAt (separator : Char) (text : String) :
    (String.singleton separator).intercalate (splitAt separator text) = text := by
  have hparts : (splitAt separator text).map String.toList = text.toList.splitOn separator := by
    rw [splitAt, List.map_map]
    exact List.map_id'' (fun cs => String.toList_ofList) _
  apply String.toList_inj.mp
  rw [String.toList_intercalate, String.toList_singleton, hparts, List.intercalate_splitOn]

/-! ## Reading the fields -/

/-- The selections are written as they were read. -/
theorem intercalate_readSelections (field : String) :
    (String.singleton selectionSeparator).intercalate (readSelections field) = field := by
  unfold readSelections
  split
  · rename_i h
    exact (String.isEmpty_iff.mp h).symm
  · exact intercalate_splitAt selectionSeparator field

/-- A single empty selection is never read. -/
theorem readSelections_ne_blank (field : String) : readSelections field ≠ [""] := by
  intro h
  have hfield := intercalate_readSelections field
  rw [h] at hfield
  subst hfield
  cases h

theorem mem_readSelections {field s : String} (h : s ∈ readSelections field) :
    s ∈ splitAt selectionSeparator field := by
  unfold readSelections at h
  split at h
  · cases h
  · exact h

/-- How a text is read. -/
inductive ReadAs (wire : String) : Layout → WireId → Prop where
  | current {command selections field click : String} {target : Option UInt64}
      (hsplit : splitAt fieldSeparator wire = [command, selections, field, click])
      (htarget : readTarget field = .ok target) :
      ReadAs wire .current ⟨command, readSelections selections, target, click⟩
  | legacy {command selections click : String}
      (hsplit : splitAt fieldSeparator wire = [command, selections, click]) :
      ReadAs wire .legacy ⟨command, readSelections selections, none, click⟩

/-- **What is read, with everything that was split and checked on the way.** -/
theorem readAs_of_decodeLayout {wire : String} {layout : Layout} {id : WireId}
    (h : decodeLayout wire = .ok (layout, id)) : ReadAs wire layout id := by
  unfold decodeLayout at h
  split at h
  · rename_i hsplit
    obtain ⟨target, htarget, h⟩ := exists_of_bind_ok h
    obtain ⟨rfl, rfl⟩ := Prod.mk.inj (Except.ok.inj h)
    exact .current hsplit htarget
  · rename_i hsplit
    obtain ⟨rfl, rfl⟩ := Prod.mk.inj (Except.ok.inj h)
    exact .legacy hsplit
  · cases h

theorem separable_of_mem_fields {wire command selections click : String} {target : Option UInt64}
    {fields : List String} (hsplit : splitAt fieldSeparator wire = fields)
    (hcommand : command ∈ fields) (hselections : selections ∈ fields) (hclick : click ∈ fields) :
    Separable ⟨command, readSelections selections, target, click⟩ := by
  subst hsplit
  refine ⟨not_mem_of_mem_splitAt hcommand, not_mem_of_mem_splitAt hclick, fun s hs hc => ?_,
    fun s hs => not_mem_of_mem_splitAt (mem_readSelections hs), readSelections_ne_blank selections⟩
  -- what stands in a selection stands in its field
  exact not_mem_of_mem_splitAt hselections (mem_of_mem_splitAt (mem_readSelections hs) hc)

/-- **Whatever is read is separable.** -/
theorem separable_of_decodeLayout {wire : String} {layout : Layout} {id : WireId}
    (h : decodeLayout wire = .ok (layout, id)) : id.Separable := by
  cases readAs_of_decodeLayout h with
  | current hsplit _ => exact separable_of_mem_fields hsplit (by simp) (by simp) (by simp)
  | legacy hsplit => exact separable_of_mem_fields hsplit (by simp) (by simp) (by simp)

theorem separable_of_decode {wire : String} {id : WireId} (h : decode wire = .ok id) :
    id.Separable := by
  obtain ⟨⟨layout, id⟩, hlayout, rfl⟩ := exists_of_map_ok h
  exact separable_of_decodeLayout hlayout

/-! ## Reading back what was written -/

/--
**An id reads back as it was exactly if no separator strays into its parts** and its selections
are not a single empty one, which is written like none.
-/
theorem decode_encode_eq_ok_iff (command : String) (selections : List String)
    (target : Option UInt64) (click : String) :
    decode (encode ⟨command, selections, target, click⟩) =
        .ok ⟨command, selections, target, click⟩ ↔
      fieldSeparator ∉ command.toList ∧ fieldSeparator ∉ click.toList ∧
        (∀ s ∈ selections, fieldSeparator ∉ s.toList ∧ selectionSeparator ∉ s.toList) ∧
        selections ≠ [""] := by
  constructor
  · intro h
    obtain ⟨hcommand, hclick, hfield, hselection, hblank⟩ := separable_of_decode h
    exact ⟨hcommand, hclick, fun s hs => ⟨hfield s hs, hselection s hs⟩, hblank⟩
  · rintro ⟨hcommand, hclick, hselections, hblank⟩
    exact decode_encode ⟨hcommand, hclick, fun s hs => (hselections s hs).1,
      fun s hs => (hselections s hs).2, hblank⟩

/-- A single empty selection reads back as none. -/
example : decode (encode ⟨"roll", [""], none, "id1"⟩) = .ok ⟨"roll", [], none, "id1"⟩ := by cbv

end RollMenu.WireId
