import Mathlib
import RollMenu.Proofs.HonestRun
import RollMenu.Proofs.PlainIntegers

/-!
# What accepted configurations roll

A configuration is meant to be accepted only if the engine takes every expression that
can be rolled with it. The search asks about the expressions of corner cases, and what it
has asked about is taken.

Not all others are. Integers are written in more ways than dice expressions allow, so a
value `+6` between 4 and 8 is accepted next to a `d` and makes an expression that does not
even read. And a number between two that are taken need not be taken itself if it is a
negative one in front of a pool. The main statement is that nothing else goes wrong: as
long as every selected value is covered by what the search has tried, the roll is taken.
-/

namespace RollMenu

/-- What is known of each pair of two lists may be used to go from one relation to another. -/
theorem forall₂_take_of_zip {α β : Type} {R S : α → β → Prop} {xs : List α} {ys : List β}
    (h : List.Forall₂ R xs (ys.take xs.length)) (hS : ∀ x y, (x, y) ∈ xs.zip ys → R x y → S x y) :
    List.Forall₂ S xs (ys.take xs.length) := by
  induction xs generalizing ys with
  | nil => exact .nil
  | cons x xs ih =>
    cases ys with
    | nil => cases h
    | cons y ys =>
      obtain ⟨hxy, hrest⟩ := List.forall₂_cons.mp h
      refine .cons (hS x y List.mem_cons_self hxy) (ih hrest ?_)
      intro x' y' hmem
      exact hS x' y' (List.mem_cons_of_mem _ hmem)

theorem mem_zip_append {α β : Type} {x : α × β} {xs xs' : List α} {ys : List β}
    (h : x ∈ xs.zip ys) : x ∈ (xs ++ xs').zip ys := by
  induction xs generalizing ys with
  | nil => cases h
  | cons a xs ih =>
    cases ys with
    | nil => cases h
    | cons b ys =>
      rcases List.mem_cons.mp h with rfl | h
      · exact List.mem_cons_self
      · exact List.mem_cons_of_mem _ (ih h)

namespace Validation

variable {m : Menu} {config : Config} {values us : List String}

/-- What the search has asked about is taken. -/
theorem rollable_of_explored (hm : m.Numbered)
    (h : ((searchOf m config Dice.complaint).visit m.size {}).verdict = .ok ())
    (hvalues : Explored m { selections := values })
    (hcomplete : m.pending { selections := values } = none) :
    Dice.Rollable (m.rolledText values) := by
  have hverdict := Search.verdict_of_explored (s := searchOf m config Dice.complaint) hm h hvalues
  have hstatus := Menu.status_eq_complete_iff.mpr hcomplete
  have hroll : m.rollRequest { selections := values } config.answerFormat =
      some { expression := m.template.substitute (m.filling { selections := values }),
             label := m.answerLabel { selections := values } config.answerFormat } := by
    rw [Menu.rollRequest, hstatus]
  rw [Search.visit] at hverdict
  simp only [searchOf, hstatus, Search.askEngine, hroll] at hverdict
  split at hverdict
  · rename_i hcomplaint
    exact Dice.complaint_eq_none_iff.mp hcomplaint
  · cases hverdict

/-- A roll is the text of a selection that is complete. -/
theorem rolledText_of_rollRequest {p : Progress} {format : AnswerFormat} {roll : RollRequest}
    (h : m.rollRequest p format = some roll) :
    roll.expression.toList = m.rolledText p.selections ∧ m.pending p = none := by
  unfold Menu.rollRequest at h
  split at h
  · rename_i hstatus
    obtain rfl := Option.some.inj h
    exact ⟨rfl, Menu.status_eq_complete_iff.mp hstatus⟩
  · cases h

section

variable (hm : m.Numbered) (halign : m.Aligned)
  (h : ((searchOf m config Dice.complaint).visit m.size {}).verdict = .ok ())
  (hvalues : List.Forall₂ m.Covered values (m.parameters.take values.length))
include hm halign h hvalues

/-- A selection that fills all placeholders. -/
theorem rollable_of_filled (hlength : values.length = m.size) :
    Dice.Rollable (m.rolledText values) := by
  have hroll := Menu.rollable_of_covered values [] halign hlength.le hvalues ?_
  · rwa [List.append_nil] at hroll
  intro us hus hfollowed
  rw [List.append_nil]
  refine rollable_of_explored hm h (explored_of_followed hfollowed) ?_
  refine Menu.status_eq_complete_iff.mp ?_
  rw [Menu.status, if_pos (by simp [hus, hlength])]

/-- A selection that ends in a direct choice. -/
theorem rollable_of_direct {p : Parameter} {c : Choice} (hp : m.parameters[values.length]? = some p)
    (hc : p.choiceByValue c.value = some c) (hdirect : c.direct = true) :
    Dice.Rollable (m.rolledText (values ++ [c.value])) := by
  have hlt : values.length < m.size := (List.getElem?_eq_some_iff.mp hp).1
  refine Menu.rollable_of_covered values [c.value] halign hlt hvalues ?_
  intro us hus hfollowed
  rw [← hus] at hp
  -- the direct choice is a corner case, so the search takes it behind followed values
  have hpending : m.pending { selections := us } = some p :=
    (Menu.pending_iff_continuing.mpr ⟨hp, hfollowed.imp fun _ _ h => h.1⟩).2
  have hcorner : c ∈ corners p.choices := by
    refine mem_corners_of_special (Parameter.mem_of_choiceByValue hc).1 ?_
    rw [isSpecial, hdirect, Bool.or_true]
  have hexplored := (explored_of_followed hfollowed).step hpending hcorner
  refine rollable_of_explored hm h hexplored ?_
  refine Menu.status_eq_complete_iff.mp (Menu.complete_of_endedDirectly ?_)
  rw [Menu.endedDirectly_eq, Menu.endedAfter_concat, hp]
  simp [hc, hdirect]

end

/-- A click that completes a selection of covered values rolls what the engine takes. -/
theorem complaint_of_completed (hm : m.Numbered) (halign : m.Aligned)
    (h : ((searchOf m config Dice.complaint).visit m.size {}).verdict = .ok ())
    {p q : Progress} {clicked user : String} {format : AnswerFormat} {roll : RollRequest}
    (hclick : m.click p clicked user format = .completed q roll)
    (hcovered : ∀ v parameter, (v, parameter) ∈ q.selections.zip m.parameters →
      v ∈ parameter.continuing → m.Covered v parameter) :
    Dice.complaint roll.expression = none := by
  have hcase := m.click_cases p clicked user format
  rw [hclick] at hcase
  cases hcase with
  | @completed parameter c _ hfree hclear hcheck hp hc hroll =>
    obtain ⟨hexpression, hcomplete⟩ := rolledText_of_rollRequest hroll
    rw [Dice.complaint_eq_none_iff, hexpression]
    have hreplay : m.checkSelections (p.choose c user).selections = .ok () :=
      Menu.checkSelections_choose hcheck hp (Parameter.mem_of_choice hc)
    have hne : (p.choose c user).selections ≠ [] :=
      List.append_ne_nil_of_right_ne_nil _ (List.cons_ne_nil _ _)
    -- the lock makes no difference to what is pending
    have hnone : m.pending { selections := (p.choose c user).selections } = none := hcomplete
    generalize (p.choose c user).selections = values at *
    rcases Menu.filled_or_direct_of_complete hreplay hne hnone with
      ⟨hlength, hcontinuing⟩ | ⟨us, parameter, d, rfl, hget, hd, hdirect, hcontinuing⟩
    · have hvalues := forall₂_take_of_zip hcontinuing hcovered
      exact rollable_of_filled hm halign h hvalues hlength
    · refine rollable_of_direct hm halign h (forall₂_take_of_zip hcontinuing ?_) hget hd hdirect
      intro v parameter hmem
      exact hcovered v parameter (mem_zip_append hmem)

/-- **Where all placeholders are ranges that stand apart**, whatever is rolled with an accepted
configuration is taken. -/
theorem complaint_eq_none_of_ranges {limits : Limits} {config : Config} {t : Template}
    (h : validate limits config Dice.complaint = .ok ())
    (ht : Template.parse config.template = .ok t)
    (hranges : ∀ p ∈ t.placeholders, (∃ text, p.spec = some text ∧
      (Range.bounds? text).isSome = true) ∧ t.isApart p.index [] [] = true) :
    ∃ flow, Flow.ofConfig limits config = .ok flow ∧
      ∀ (p q : Progress) (clicked user : String) (roll : RollRequest),
        flow.click p clicked user = .completed q roll → Dice.complaint roll.expression = none := by
  obtain ⟨menu, hmenu, hvisit⟩ := visit_of_validate h
  refine ⟨{ config, menu }, by rw [Flow.ofConfig, hmenu]; rfl, ?_⟩
  intro p q clicked user roll hclick
  refine complaint_of_completed (Menu.numbered_of_compile hmenu) (Menu.aligned_of_compile hmenu)
    hvisit hclick ?_
  intro v parameter hmem hv
  -- the parameter comes from one of the ranges
  obtain ⟨hparse, -, hall⟩ := Menu.compile_ok hmenu
  obtain rfl := Except.ok.inj (ht.symm.trans hparse)
  obtain ⟨placeholder, hplaceholder, hexpand⟩ :=
    exists_of_forall₂_of_mem hall (List.of_mem_zip hmem).2
  obtain ⟨⟨text, hspec, hrange⟩, hapart⟩ := hranges placeholder hplaceholder
  refine parameter.covered_of_isPlain (Menu.isPlain_of_range hexpand hspec hrange) (Or.inr ?_) hv
  rw [Menu.placeholder_of_expand hexpand]
  exact hapart

/--
**When an accepted configuration completes with an expression that the engine takes.** It does
so for every selection whose values are covered, and a direct choice at the end needs no
cover.
-/
theorem complaint_eq_none_of_validate {limits : Limits} {config : Config}
    (h : validate limits config Dice.complaint = .ok ()) :
    ∃ flow, Flow.ofConfig limits config = .ok flow ∧
      ∀ (p q : Progress) (clicked user : String) (roll : RollRequest),
        flow.click p clicked user = .completed q roll →
        (∀ v parameter, (v, parameter) ∈ q.selections.zip flow.menu.parameters →
          v ∈ parameter.continuing → flow.menu.Covered v parameter) →
        Dice.complaint roll.expression = none := by
  obtain ⟨menu, hmenu, hvisit⟩ := visit_of_validate h
  refine ⟨{ config, menu }, by rw [Flow.ofConfig, hmenu]; rfl, ?_⟩
  intro p q clicked user roll hclick hcovered
  exact complaint_of_completed (Menu.numbered_of_compile hmenu) (Menu.aligned_of_compile hmenu)
    hvisit hclick hcovered

/-- Two numbers that the search has not tried: one dice count between two others, and a negative
number that is added. -/
theorem complaint_eq_none_of_validate_untried :
    ∃ flow, Flow.ofConfig {} { template := "{Count:1/2/3}d6+{Mod:-2<=>0}" } = .ok flow ∧
      ∃ p q roll, Reachable flow.menu p ∧ flow.click p "id2" "alice" = .completed q roll ∧
        roll.expression = "2d6+-1" ∧ Dice.complaint roll.expression = none := by
  obtain ⟨flow, hflow, hall⟩ := complaint_eq_none_of_validate (by cbv :
    validate {} { template := "{Count:1/2/3}d6+{Mod:-2<=>0}" } Dice.complaint = .ok ())
  obtain ⟨other, hother, hview⟩ := exists_of_map_ok (by cbv :
    (Flow.ofConfig {} { template := "{Count:1/2/3}d6+{Mod:-2<=>0}" }).map (fun flow =>
      (flow.menu.parameters.all fun p =>
        p.isPlain && (p.isNatural || flow.menu.template.isApart p.placeholder.index [] []),
       flow.click (flow.click {} "id2" "alice").progress "id2" "alice")) =
      .ok (true, .completed { selections := ["2", "-1"], lock := some "alice" }
        { expression := "2d6+-1", label := some "Count: 2, Mod: -1" }))
  obtain rfl := Except.ok.inj (hother.symm.trans hflow)
  obtain ⟨hplain, hclick⟩ := Prod.mk.inj hview
  have hr : Reachable other.menu (other.click {} "id2" "alice").progress := .tail .init _ _ _
  refine ⟨other, hother, _, _, _, hr, hclick, rfl, ?_⟩
  refine hall _ _ "id2" "alice" _ hclick ?_
  intro v parameter hmem hv
  have hparameter := List.all_eq_true.mp hplain parameter (List.of_mem_zip hmem).2
  rw [Bool.and_eq_true_iff, Bool.or_eq_true_iff] at hparameter
  exact parameter.covered_of_isPlain hparameter.1 hparameter.2 hv

/-- A sign that integers may have and dice may not. -/
theorem refused_of_validate_plus_sign :
    validate {} { template := "1d{Sides:4/+6/8}" } Dice.complaint = .ok () ∧
      ∃ flow, Flow.ofConfig {} { template := "1d{Sides:4/+6/8}" } = .ok flow ∧
        ∃ p q roll, Reachable flow.menu p ∧ flow.click p "id2" "alice" = .completed q roll ∧
          Dice.complaint roll.expression =
            some (RollError.unexpectedToken "1d+6" 2 '+').message := by
  refine ⟨by cbv, ?_⟩
  obtain ⟨flow, hflow, hclick⟩ := exists_of_map_ok (by cbv :
    (Flow.ofConfig {} { template := "1d{Sides:4/+6/8}" }).map
      (fun flow => flow.click {} "id2" "alice") =
        .ok (.completed { selections := ["+6"], lock := some "alice" }
          { expression := "1d+6", label := some "Sides: +6" }))
  have hparse : Dice.parse "1d+6" = .error (.unexpectedToken "1d+6" 2 '+') := by cbv
  refine ⟨flow, hflow, {}, _, _, .init, hclick, ?_⟩
  rw [Dice.complaint, hparse]

end Validation

end RollMenu
