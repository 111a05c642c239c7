import Mathlib
import RollMenu.Proofs.RangeExpansion

/-!
# Prompts fit the grid

The platform shows at most five rows of five buttons. Nothing in drawing a prompt looks at the
number of its buttons. They fit because every way of offering choices is capped when a template
is compiled, and because one button, the clear button, is all that is ever added to them.

Cutting buttons into rows is described by `Grid`, which says what rows look like and nothing
about how they were cut. The main statement puts the two together for every selection, whether
clicks can lead to it or not. With the default limits the longest prompt, a full range and the
clear button, is exactly as large as the grid.
-/

namespace RollMenu

/-! ## Rows -/

section Rows

variable {α : Type} {width extra : Nat} {row : List α} {rows : List (List α)}

/-- Rows that are filled one after another: none is empty or too long, and none before the last
has any room left. -/
structure Grid (width : Nat) (rows : List (List α)) : Prop where
  ne_nil : ∀ row ∈ rows, row ≠ []
  length_le : ∀ row ∈ rows, row.length ≤ width
  full : ∀ row ∈ rows.dropLast, row.length = width

theorem Grid.nil : Grid width ([] : List (List α)) := ⟨nofun, nofun, nofun⟩

theorem Grid.cons (h : Grid width rows) (hne : row ≠ []) (hle : row.length ≤ width)
    (hfull : rows ≠ [] → row.length = width) : Grid width (row :: rows) where
  ne_nil := List.forall_mem_cons.mpr ⟨hne, h.ne_nil⟩
  length_le := List.forall_mem_cons.mpr ⟨hle, h.length_le⟩
  full := by
    cases rows with
    | nil => nofun
    | cons next rows =>
      rw [List.dropLast_cons_cons]
      exact List.forall_mem_cons.mpr ⟨hfull (List.cons_ne_nil _ _), h.full⟩

theorem inRows_eq_nil_iff {xs : List α} : inRows extra xs = [] ↔ xs = [] := by
  cases xs with
  | nil => simp
  | cons x xs => simp [inRows_cons]

/-- **A list is cut into rows that are filled one after another.** -/
theorem grid_inRows (extra : Nat) (xs : List α) : Grid (extra + 1) (inRows extra xs) := by
  fun_induction inRows extra xs with
  | case1 => exact .nil
  | case2 x xs ih =>
    refine ih.cons (List.cons_ne_nil _ _) ?_ fun hrest => ?_
    · rw [List.length_cons, List.length_take]
      omega
    · -- another row follows, so there was enough for this one
      have hdrop := mt inRows_eq_nil_iff.mpr hrest
      rw [List.drop_eq_nil_iff] at hdrop
      rw [List.length_cons, List.length_take]
      omega

/-- How many rows it takes. -/
theorem length_inRows (extra : Nat) (xs : List α) :
    (inRows extra xs).length = (xs.length + extra) / (extra + 1) := by
  fun_induction inRows extra xs with
  | case1 => exact (Nat.div_eq_of_lt (by simp)).symm
  | case2 x xs ih =>
    have hcut : (xs.length - extra + extra) / (extra + 1) = xs.length / (extra + 1) := by
      rcases Nat.le_total extra xs.length with h | h
      · rw [Nat.sub_add_cancel h]
      · rw [Nat.sub_eq_zero_of_le h, Nat.zero_add, Nat.div_eq_of_lt (Nat.lt_succ_self extra),
          Nat.div_eq_of_lt (Nat.lt_succ_of_le h)]
    calc (inRows extra (xs.drop extra)).length + 1
        = (xs.length - extra + extra) / (extra + 1) + 1 := by rw [ih, List.length_drop]
      _ = (xs.length + (extra + 1)) / (extra + 1) := by
        rw [hcut, Nat.add_div_right _ (Nat.succ_pos extra)]
      _ = (xs.length + 1 + extra) / (extra + 1) := by rw [Nat.add_right_comm, Nat.add_assoc]

end Rows

/-! ## Choices -/

/-- The most choices that the built-in formats give a placeholder. A range may have one even if
its cap is zero. -/
def Limits.mostChoices (limits : Limits) : Nat :=
  max 1 (max limits.rangeCap.toNat (max limits.listCap.toNat limits.defaultChoices.toNat))

variable {limits : Limits}

/-- Whatever the bounds of a range are, the cap bounds its integers. -/
theorem Range.length_integers_le {low : Int} (cap : UInt64) (hlow : Decimal.Fits low) (high : Int) :
    (integers cap low high).length ≤ max 1 cap.toNat := by
  rw [integers, List.length_map, List.length_range]
  exact (size_le_allowance cap hlow high).trans (Nat.min_le_left _ _)

theorem Listing.length_entries_le (cap : UInt64) (spec : String) :
    (entries cap spec).length ≤ cap.toNat :=
  (List.length_filter_le _ _).trans (List.length_take_le _ _)

namespace Spec

/-- **No built-in format offers more than the limits allow.** -/
theorem length_offers_le {format : SpecFormat} (hf : format ∈ builtin) {text : String}
    {offers : List Offer} (h : format.offers limits text = some offers) :
    offers.length ≤ limits.mostChoices := by
  unfold Limits.mostChoices
  rcases List.mem_pair.mp hf with rfl | rfl
  · obtain ⟨⟨low, high⟩, hbounds, rfl⟩ := Option.map_eq_some_iff.mp h
    have hle := Range.length_integers_le limits.rangeCap (Range.fits_of_bounds? hbounds) high
    rw [List.length_map]
    omega
  · have hle := Listing.length_entries_le limits.listCap text
    unfold Listing.format at h
    dsimp only at h
    split at h
    · cases h
    · obtain rfl := Option.some.inj h
      rw [List.length_map]
      omega

/-- Nor has a placeholder more choices than that. -/
theorem length_choices_le {expression : String} {spec : Option String} {choices : List Choice}
    (h : Spec.choices builtin limits expression spec = .ok choices) :
    choices.length ≤ limits.mostChoices := by
  unfold Spec.choices at h
  split at h
  · obtain rfl := Except.ok.inj h
    rw [Choice.length_number, defaultOffers, List.length_map, List.length_range,
      Limits.mostChoices]
    omega
  · cases h
  · rename_i offers hoffers
    obtain rfl := Except.ok.inj h
    obtain ⟨text, rfl, hoffers⟩ := Option.bind_eq_some_iff.mp hoffers
    obtain ⟨format, hformat, hoffers⟩ := Option.map_eq_some_iff.mp hoffers
    rw [Choice.length_number]
    exact length_offers_le (List.mem_of_find?_eq_some hformat) hoffers

end Spec

namespace Menu

variable {m : Menu} {source : String} {p : Progress} {target : Option UInt64}
  {format : AnswerFormat}

theorem length_choices_le_of_compile (hm : compile limits source = .ok m) {parameter : Parameter}
    (hmem : parameter ∈ m.parameters) : parameter.choices.length ≤ limits.mostChoices := by
  obtain ⟨-, -, hexpand⟩ := compile_ok hm
  obtain ⟨placeholder, -, hparameter⟩ := exists_of_forall₂_of_mem hexpand hmem
  obtain ⟨choices, hchoices, -⟩ := exists_of_bind_ok hparameter
  rw [choices_of_expand hchoices hparameter, link, List.length_map]
  exact Spec.length_choices_le hchoices

/-! ## Buttons -/

/-- **There is at most one button more than there can be choices.** -/
theorem length_buttons_le (hm : compile limits source = .ok m) (p : Progress)
    (target : Option UInt64) : (m.buttons p target).length ≤ limits.mostChoices + 1 := by
  unfold buttons
  split
  · exact Nat.zero_le _
  · rename_i parameter hp
    have hle := length_choices_le_of_compile hm (mem_of_pending hp)
    rw [List.length_append, List.length_map]
    split
    · exact Nat.add_le_add hle (Nat.zero_le 1)
    · exact Nat.add_le_add hle (Nat.le_refl 1)

/-- All buttons of a prompt, in order. -/
theorem buttons_prompt (m : Menu) (p : Progress) (target : Option UInt64) (format : AnswerFormat) :
    (m.prompt p target format).buttons =
      m.buttons (if m.status p = .complete then {} else p) target := by
  split
  · rename_i h
    exact buttons_prompt_of_complete (status_eq_complete_iff.mp h)
  · rename_i h
    obtain ⟨parameter, hp⟩ := status_ne_complete_iff.mp h
    exact buttons_prompt_of_pending hp

/-- The rows are the buttons cut at the width of the limits. -/
theorem rows_prompt (m : Menu) (p : Progress) (target : Option UInt64) (format : AnswerFormat) :
    (m.prompt p target format).rows =
      inRows (m.limits.buttonsPerRow.toNat - 1) (m.prompt p target format).buttons := by
  rw [Prompt.buttons, prompt, flatten_inRows]

/--
**Prompts fit the grid and lose no button.** The rows of a prompt hold the buttons of the selection
in order, or those of a fresh one if the selection is complete. No row is empty or has more buttons
than the limits ask for, where zero counts as one, and all rows but the last have exactly so many.
There is at most one button more than a placeholder can have choices. So with the default limits no
prompt of any template has more than five rows of five buttons.
-/
theorem grid_prompt (hm : compile limits source = .ok m) (p : Progress) (target : Option UInt64)
    (format : AnswerFormat) :
    (m.prompt p target format).rows.flatten =
      m.buttons (if m.status p = .complete then {} else p) target ∧
    Grid (max 1 limits.buttonsPerRow.toNat) (m.prompt p target format).rows ∧
    (m.prompt p target format).rows.flatten.length ≤ limits.mostChoices + 1 ∧
    (limits = {} → (m.prompt p target format).rows.length ≤ 5 ∧
      ∀ row ∈ (m.prompt p target format).rows, row.length ≤ 5) := by
  obtain ⟨-, hlimits, -⟩ := compile_ok hm
  have hbuttons := m.buttons_prompt p target format
  have hrows := m.rows_prompt p target format
  have hlength : (m.prompt p target format).buttons.length ≤ limits.mostChoices + 1 := by
    rw [hbuttons]
    exact length_buttons_le hm _ target
  have hgrid : Grid (max 1 limits.buttonsPerRow.toNat) (m.prompt p target format).rows := by
    have hwidth : limits.buttonsPerRow.toNat - 1 + 1 = max 1 limits.buttonsPerRow.toNat := by omega
    rw [hrows, hlimits, ← hwidth]
    exact grid_inRows _ _
  refine ⟨hbuttons, hgrid, hlength, ?_⟩
  rintro rfl
  refine ⟨?_, hgrid.length_le⟩
  -- a full range and the clear button take up the whole grid
  rw [hrows, length_inRows, hlimits]
  calc ((m.prompt p target format).buttons.length + 4) / 5
      ≤ (24 + 1 + 4) / 5 := Nat.div_le_div_right (Nat.add_le_add_right hlength 4)
    _ = 5 := rfl

/-- The default limits at their extreme: no further button would fit. -/
theorem grid_prompt_full :
    ∃ m, compile {} "{A:1<=>99}+{B:1<=>99}" = .ok m ∧
      ∃ rows, rows = (m.prompt { selections := ["1"] } none .full).rows ∧
        rows.flatten = m.buttons { selections := ["1"] } none ∧ rows.flatten.length = 25 ∧
        rows.length ≤ 5 ∧ (∀ row ∈ rows, row.length ≤ 5) ∧
        ∀ row ∈ rows.dropLast, row.length = 5 := by
  obtain ⟨m, hm, hview⟩ := exists_of_map_ok (by cbv :
    (compile {} "{A:1<=>99}+{B:1<=>99}").map (fun m =>
      (m.status { selections := ["1"] }, (m.buttons { selections := ["1"] } none).length)) =
      .ok (.partly 1, 25))
  obtain ⟨hstatus, hcount⟩ := Prod.mk.inj hview
  obtain ⟨hflatten, hgrid, -, hfit⟩ := grid_prompt hm { selections := ["1"] } none .full
  rw [hstatus] at hflatten
  obtain ⟨hfew, hnarrow⟩ := hfit rfl
  exact ⟨m, hm, _, rfl, hflatten, by rw [hflatten]; exact hcount, hfew, hnarrow, hgrid.full⟩

end Menu

end RollMenu
