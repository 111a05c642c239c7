import RollMenu.Proofs.Reachable
import RollMenu.Proofs.WireRoundTrip
import RollMenu.Validation.Search

/-!
# The ids under the buttons of a prompt

A button has to survive a trip to the client: its id is written, sent back and read, and
what was read has to be a click that the menu takes. `Shown` says of the parts of an id
that a menu shows them on a button. Two facts follow, and they are all that later proofs
use.

* Parts that are shown **can be read back**, as long as the template has no reserved
  character. Selections are values of choices, and those are written in the template.
* A click on parts that are shown **is taken**, unless somebody else holds the selection.
-/

namespace RollMenu

/-- What the buttons for a parameter click: its choices, and the clear button if anything has
been selected before. -/
def Parameter.clicks (p : Parameter) (selected : Nat) : List String :=
  p.choices.map Choice.id ++ if selected = 0 then [] else [clearClick]

theorem Parameter.mem_clicks_iff {p : Parameter} {selected : Nat} {click : String} :
    click ∈ p.clicks selected ↔
      (∃ c ∈ p.choices, c.id = click) ∨ selected ≠ 0 ∧ click = clearClick := by
  rw [clicks, List.mem_append, List.mem_map]
  by_cases h : selected = 0 <;> simp [h]

namespace Menu

/-- The parts stand under a button of the menu: the selections replay, and the click is one for
the parameter that is pending after them. -/
structure Shown (m : Menu) (parts : WireId) : Prop where
  command : parts.command = m.limits.commandName
  replays : m.checkSelections parts.selections = .ok ()
  click : ∃ parameter, m.pending { selections := parts.selections } = some parameter ∧
    parts.click ∈ parameter.clicks parts.selections.length

variable {m : Menu} {p : Progress} {target : Option UInt64} {format : AnswerFormat} {b : Button}

/-! ## The buttons of a prompt -/

theorem buttons_prompt_of_pending {parameter : Parameter} (h : m.pending p = some parameter) :
    (m.prompt p target format).buttons = m.buttons p target := by
  have hstatus := status_ne_complete h
  rw [prompt, Prompt.buttons, flatten_inRows]
  split
  · contradiction
  · rfl

theorem buttons_prompt_of_complete (h : m.pending p = none) :
    (m.prompt p target format).buttons = m.buttons {} target := by
  rw [prompt, Prompt.buttons, flatten_inRows, status_eq_complete_iff.mpr h]

/-- The ids of the buttons, in order. -/
theorem ids_buttons {parameter : Parameter} (hp : m.pending p = some parameter) :
    (m.buttons p target).map Button.id = (parameter.clicks p.selections.length).map
      fun click => (m.wireId p.selections target click).encode := by
  have hchoices : (parameter.choices.map (m.choiceButton p target)).map Button.id =
      (parameter.choices.map Choice.id).map
        fun click => (m.wireId p.selections target click).encode := by
    rw [List.map_map, List.map_map]
    rfl
  rw [buttons, hp, Parameter.clicks, List.map_append, List.map_append, hchoices]
  by_cases h : p.selections = []
  · rw [if_pos (by simp [h]), if_pos (by simp [h])]
    rfl
  · rw [if_neg (by simpa using h), if_neg (by simpa using h)]
    rfl

theorem exists_click_of_mem_buttons (hb : b ∈ m.buttons p target) :
    ∃ parameter, m.pending p = some parameter ∧
      ∃ click ∈ parameter.clicks p.selections.length,
        b.id = (m.wireId p.selections target click).encode := by
  cases hp : m.pending p with
  | none =>
    rw [buttons, hp] at hb
    cases hb
  | some parameter =>
    have hid : b.id ∈ (m.buttons p target).map Button.id := List.mem_map_of_mem hb
    rw [ids_buttons hp] at hid
    obtain ⟨click, hclick, hid⟩ := List.mem_map.mp hid
    exact ⟨parameter, rfl, click, hclick, hid.symm⟩

theorem shown_of_mem_buttons (hcheck : m.checkSelections p.selections = .ok ())
    (hb : b ∈ m.buttons p target) : ∃ parts, m.Shown parts ∧ b.id = parts.encode := by
  obtain ⟨parameter, hp, click, hclick, hid⟩ := exists_click_of_mem_buttons hb
  exact ⟨m.wireId p.selections target click, ⟨rfl, hcheck, parameter, hp, hclick⟩, hid⟩

/-- **Every button of a prompt is shown by the menu,** whether the selection is complete or not. -/
theorem shown_of_mem_prompt (hcheck : m.checkSelections p.selections = .ok ())
    (hb : b ∈ (m.prompt p target format).buttons) :
    ∃ parts, m.Shown parts ∧ b.id = parts.encode := by
  cases hp : m.pending p with
  | some parameter =>
    rw [buttons_prompt_of_pending hp] at hb
    exact shown_of_mem_buttons hcheck hb
  | none =>
    rw [buttons_prompt_of_complete hp] at hb
    exact shown_of_mem_buttons checkSelections_nil hb

end Menu

/-! ## Reserved characters -/

namespace Validation

theorem firstReserved_eq_none_iff {position : Nat} {cs : List Char} :
    firstReserved position cs = none ↔ ∀ c ∈ cs, isReserved c = false := by
  induction cs generalizing position with
  | nil => simp [firstReserved]
  | cons c cs ih =>
    cases h : isReserved c with
    | true => simp [firstReserved, h]
    | false => simp [firstReserved, h, ih]

theorem isReserved_eq_false_iff {c : Char} :
    isReserved c = false ↔ c ≠ fieldSeparator ∧ c ≠ selectionSeparator := by
  simp [isReserved]

theorem isReserved_of_isNumeral {c : Char} (h : Decimal.IsNumeral c) : isReserved c = false := by
  rw [isReserved_eq_false_iff]
  rcases h with h | rfl
  · constructor <;> rintro rfl <;> exact absurd h (by decide)
  · decide

/-- Nothing that is written in a template without reserved characters is reserved. -/
theorem isReserved_of_allowed {source : String} {c : Char}
    (hsource : ∀ c ∈ source.toList, isReserved c = false) (h : Template.Allowed source c) :
    isReserved c = false := by
  rcases h with ⟨hc, -⟩ | hc
  · exact hsource c hc
  · exact isReserved_of_isNumeral hc

end Validation

/-! ## Reading them back -/

namespace Menu

variable {m : Menu} {parts : WireId} {limits : Limits} {source : String}

/-- The values of a selection that replays are written in the source. -/
theorem writtenIn_of_checkSelections (hm : m.CompiledFrom source limits) {vs : List String}
    (h : m.checkSelections vs = .ok ()) :
    ∀ v ∈ vs, Text.WrittenIn (Template.Allowed source) v := by
  obtain ⟨choices, rfl, hoffered⟩ := exists_choices_of_replay h
  intro v hv
  obtain ⟨c, hc, rfl⟩ := List.mem_map.mp hv
  obtain ⟨parameter, hp, hmem⟩ := exists_of_forall₂_of_mem hoffered.flip hc
  exact (hm.parameter parameter (List.mem_of_mem_take hp)).value c hmem

/-- Ids of choices have no reserved character. -/
theorem isReserved_of_mem_id {p : Parameter} (hp : p.Numbered) {choice : Choice}
    (hchoice : choice ∈ p.choices) {c : Char} (hc : c ∈ choice.id.toList) :
    Validation.isReserved c = false := by
  obtain ⟨i, hi⟩ := hp.exists_idAt hchoice
  rw [hi] at hc
  rcases Choice.mem_idAt hc with rfl | rfl | hc
  · decide
  · decide
  · exact Validation.isReserved_of_isNumeral hc

theorem isReserved_of_mem_click (hm : m.Numbered) (h : m.Shown parts) {c : Char}
    (hc : c ∈ parts.click.toList) : Validation.isReserved c = false := by
  obtain ⟨parameter, hp, hclick⟩ := h.click
  rcases Parameter.mem_clicks_iff.mp hclick with ⟨choice, hchoice, hid⟩ | ⟨-, hclear⟩
  · exact isReserved_of_mem_id (hm parameter (mem_of_pending hp)) hchoice (hid ▸ hc)
  · have hletters : clearClick.toList.all (fun c => !Validation.isReserved c) = true := by decide
    simpa using List.all_eq_true.mp hletters c (hclear ▸ hc)

/-- **What is shown can be read back.** -/
theorem Shown.separable (h : m.Shown parts) (hm : m.CompiledFrom source limits)
    (hsource : ∀ c ∈ source.toList, Validation.isReserved c = false)
    (hcommand : fieldSeparator ∉ limits.commandName.toList) : parts.Separable := by
  -- values are never empty, and like ids they have no reserved character
  have hwritten := writtenIn_of_checkSelections hm h.replays
  have hvalue : ∀ s ∈ parts.selections, ∀ c ∈ s.toList, Validation.isReserved c = false :=
    fun s hs c hc => Validation.isReserved_of_allowed hsource ((hwritten s hs).2 c hc)
  refine ⟨?_, ?_, fun s hs hc => ?_, fun s hs hc => ?_, fun hblank => ?_⟩
  · rwa [h.command, hm.limits_eq]
  · intro hc
    exact (Validation.isReserved_eq_false_iff.mp (isReserved_of_mem_click hm.numbered h hc)).1 rfl
  · exact (Validation.isReserved_eq_false_iff.mp (hvalue s hs _ hc)).1 rfl
  · exact (Validation.isReserved_eq_false_iff.mp (hvalue s hs _ hc)).2 rfl
  · exact (hwritten "" (hblank ▸ List.mem_singleton_self "")).1 rfl

/-! ## Clicking them -/

/-- **A click on what is shown is taken.** -/
theorem Shown.taken (h : m.Shown parts) (hm : m.Numbered) {lock : Option String} {user : String}
    (hfree : lockedOut { selections := parts.selections, lock } user = none)
    (format : AnswerFormat) :
    (m.click { selections := parts.selections, lock } parts.click user format).Taken := by
  obtain ⟨parameter, hp, hclick⟩ := h.click
  rcases Parameter.mem_clicks_iff.mp hclick with ⟨c, hc, hid⟩ | ⟨-, hclear⟩
  · -- what is pending does not depend on the lock
    have hp' : m.pending { selections := parts.selections, lock } = some parameter := hp
    rw [← hid, click_id format hm hfree h.replays hp' hc]
    split
    · exact .completed _ _
    · exact .continued _
  · rw [Menu.click, hfree, if_pos hclear]
    exact .cleared {}

end Menu

end RollMenu
