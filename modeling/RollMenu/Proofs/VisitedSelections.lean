import RollMenu.Proofs.RealDefects
import RollMenu.Proofs.SoundPaths

/-!
# What a search never runs into

The depth of a menu is bounded before the search begins, and still every visit compares
the depth it has come to with the limit, and has an error ready for the case that a
corner case can not be taken. Neither is ever needed. The two sides count differently:
the bound asks which corner cases are direct choices, the visit looks the last value up
among all choices of its placeholder, where another choice with the same value may stand
first. They agree because a visit follows its corner cases only when no value is offered
twice, so each value is that of one choice.

The invariant of a selection that is visited is that every placeholder before it has a
corner case that goes on. Below the bound that leaves room for one selection more.
-/

namespace RollMenu

namespace Validation

/-- Paths get too deep when a placeholder past the limit comes after corner cases that all go
on. -/
theorem exceedsDepth_iff {menu : Menu} :
    exceedsDepth menu = true ↔
      menu.limits.maxPlaceholders.toNat < menu.size ∧
        ∀ q ∈ menu.parameters.take menu.limits.maxPlaceholders.toNat,
          ∃ c ∈ corners q.choices, c.direct = false := by
  unfold exceedsDepth
  simp

namespace Search

variable {s : Search} {p : Progress} {parameter : Parameter}

/-- The selections that a search visits: it goes on from one that is incomplete and has no
defect, by each of its corner cases. One that fails visits some of them only. -/
inductive Visited (s : Search) : Progress → Prop where
  | root : Visited s {}
  | step {p next : Progress} {parameter : Parameter} {c : Choice} (h : Visited s p)
      (hp : s.menu.pending p = some parameter) (hfine : s.defect p parameter = none)
      (hc : c ∈ corners parameter.choices) (hnext : s.menu.advance p c.id = .ok next) :
      Visited s next

theorem Visited.explored (hm : s.menu.Numbered) (h : s.Visited p) : Explored s.menu p := by
  induction h with
  | root => exact .root
  | step _ hp _ hc hnext ih =>
    obtain rfl := Except.ok.inj ((advance_corner hm hp hc).symm.trans hnext)
    exact .step ih hp hc

/-- **Before a visited selection that is incomplete, every placeholder has a corner case that
goes on.** -/
theorem exists_ongoing_of_visited (hm : s.menu.Numbered) (h : s.Visited p)
    (hp : s.menu.pending p = some parameter) :
    ∀ q ∈ s.menu.parameters.take p.selections.length,
      ∃ c ∈ corners q.choices, c.direct = false := by
  induction h generalizing parameter with
  | root =>
    intro q hq
    cases hq
  | @step p next before c h hbefore hfine hc hnext ih =>
    obtain rfl := Except.ok.inj ((advance_corner hm hbefore hc).symm.trans hnext)
    -- the value that was chosen last is that of the corner case, which is no direct choice
    have hget := (Menu.pending_eq_some_iff.mp hbefore).2
    have hnodup := (soundAt_of_defect_eq_none hbefore hfine).2 before hget
    have hdirect : c.direct = false :=
      (Menu.endedDirectly_append hget hnodup (mem_of_mem_corners hc) rfl).symm.trans
        (Menu.pending_eq_some_iff.mp hp).1
    have htake : s.menu.parameters.take (p.selections ++ [c.value]).length =
        s.menu.parameters.take p.selections.length ++ [before] := by
      rw [List.length_append, List.length_singleton, List.take_add_one, hget]
      rfl
    rw [htake]
    intro q hq
    rcases List.mem_append.mp hq with hq | hq
    · exact ih hbefore q hq
    · obtain rfl := List.mem_singleton.mp hq
      exact ⟨c, hc, hdirect⟩

/-- **Below the bound on the depth, a visited selection leaves room for the next one.** -/
theorem lt_maxPlaceholders_of_visited (hm : s.menu.Numbered) (hdepth : exceedsDepth s.menu = false)
    (h : s.Visited p) (hp : s.menu.pending p = some parameter) :
    p.selections.length < s.maxPlaceholders := by
  by_contra hle
  have hle : s.maxPlaceholders ≤ p.selections.length := Nat.le_of_not_lt hle
  have hdeep : exceedsDepth s.menu = true := by
    refine exceedsDepth_iff.mpr ⟨?_, ?_⟩
    · exact Nat.lt_of_le_of_lt hle (Menu.lt_size_of_pending hp)
    · intro q hq
      exact exists_ongoing_of_visited hm h hp q ((List.take_sublist_take_left hle).subset hq)
  rw [hdepth] at hdeep
  cases hdeep

/-- So it is complete, or there is something to select and each corner case can be taken. -/
theorem complete_or_open_of_visited (hm : s.menu.Numbered) (hdepth : exceedsDepth s.menu = false)
    (h : s.Visited p) :
    s.menu.status p = .complete ∨
      ∃ parameter, s.menu.pending p = some parameter ∧
        p.selections.length < s.maxPlaceholders ∧
        ∀ c ∈ corners parameter.choices, ∃ next, s.menu.advance p c.id = .ok next := by
  cases hp : s.menu.pending p with
  | none => exact Or.inl (Menu.status_eq_complete_iff.mpr hp)
  | some parameter =>
    refine Or.inr ⟨parameter, rfl, lt_maxPlaceholders_of_visited hm hdepth h hp, ?_⟩
    intro c hc
    exact ⟨_, advance_corner hm hp hc⟩

/-- What is found at a visited selection itself is one of the three defects that are searched
for. -/
theorem fromSearch_of_finding (hm : s.menu.Numbered) (hdepth : exceedsDepth s.menu = false)
    (h : s.Visited p) {e : ConfigError} (hfound : s.Finding p e) : e.FromSearch := by
  cases hfound with
  | invalid => exact trivial
  | @defect parameter _ hp hdefect =>
    rcases defect_cases hdefect with ⟨hdeep, -⟩ | ⟨value, -, rfl⟩ | ⟨b, -, -, rfl⟩
    · exact absurd (lt_maxPlaceholders_of_visited hm hdepth h hp) (Nat.not_lt_of_le hdeep)
    · exact trivial
    · exact trivial

/-- **Whatever a visit reports is one of the three defects that are searched for.** -/
theorem fromSearch_of_visited (hm : s.menu.Numbered) (hdepth : exceedsDepth s.menu = false)
    (h : s.Visited p) {left : Nat} {e : ConfigError} (he : (s.visit left p).verdict = .error e) :
    e.FromSearch := by
  induction left generalizing p with
  | zero =>
    rcases visit_error hm he with hfound | ⟨_, _, n, hleft, _⟩
    · exact fromSearch_of_finding hm hdepth h hfound
    · exact absurd hleft (Nat.zero_ne_add_one n)
  | succ left ih =>
    rcases visit_error hm he with hfound | ⟨parameter, c, n, hleft, hp, hfine, hc, hbranch⟩
    · exact fromSearch_of_finding hm hdepth h hfound
    · obtain rfl := Nat.succ.inj hleft
      exact ih (.step h hp hfine hc (advance_corner hm hp hc)) hbranch

end Search

/-- What is known of a menu that is searched. -/
structure Searched (limits : Limits) (config : Config) (menu : Menu) : Prop where
  compiled : Menu.compile limits config.template = .ok menu
  numbered : menu.Numbered
  choices_ne_nil : ∀ q ∈ menu.parameters, q.choices ≠ []
  depth : exceedsDepth menu = false
  pathCount_le : pathCount menu ≤ limits.maxPaths.toNat

theorem searched_of_upFront {limits : Limits} {config : Config} {menu : Menu}
    (h : upFront limits config = .ok menu) : Searched limits config menu := by
  have hcase := upFront_cases limits config
  rw [h] at hcase
  cases hcase with
  | passed hmenu _ hdepth hpaths =>
    have hcompiled := Menu.compiledFrom_of_compile hmenu
    rw [hcompiled.limits_eq] at hpaths
    exact ⟨hmenu, hcompiled.numbered, fun q hq => (hcompiled.parameter q hq).choices_ne_nil,
      hdepth, hpaths⟩

/-- **An error of any other kind is found before the search.** -/
theorem validate_eq_error_iff_of_not_fromSearch {limits : Limits} {config : Config}
    {complaint : String → Option String} {e : ConfigError} (he : ¬ e.FromSearch) :
    validate limits config complaint = .error e ↔ upFront limits config = .error e := by
  rw [validate, report_eq]
  cases hupFront : upFront limits config with
  | error e' =>
    simp only [Report.rejected, Except.error.injEq]
  | ok menu =>
    have hmenu := searched_of_upFront hupFront
    constructor
    · intro h
      exact absurd (Search.fromSearch_of_visited hmenu.numbered hmenu.depth .root h) he
    · intro h
      cases h

/-- The bound on the depth turns down what is not turned down before. -/
theorem upFront_eq_tooManyPlaceholders_iff {limits : Limits} {config : Config} {max : Nat} :
    upFront limits config = .error (.tooManyPlaceholders max) ↔
      firstReserved 0 config.template.toList = none ∧
        ∃ menu, Menu.compile limits config.template = .ok menu ∧ menu.parameters ≠ [] ∧
          exceedsDepth menu = true ∧ max = limits.maxPlaceholders.toNat := by
  constructor
  · intro h
    have hcase := upFront_cases limits config
    rw [h] at hcase
    cases hcase with
    | unreadable hmenu =>
      rcases Menu.compile_error hmenu with ⟨_, he⟩ | ⟨_, he⟩
      · cases he
      · cases he
    | deep hreserved hmenu hne hdeep =>
      have hlimits := (Menu.compiledFrom_of_compile hmenu).limits_eq
      exact ⟨hreserved, _, hmenu, hne, hdeep, by rw [hlimits]⟩
  · rintro ⟨hreserved, menu, hmenu, hne, hdeep, rfl⟩
    have hlimits := (Menu.compiledFrom_of_compile hmenu).limits_eq
    have hfilled : ¬ menu.parameters.isEmpty = true := by simpa using hne
    unfold upFront
    simp only [hreserved, hmenu, if_neg hfilled, if_pos hdeep, hlimits]

/--
**The precautions of a search are never needed.** In a menu whose depth is within the bound,
a selection that is visited is complete, or it asks for something, leaves room for one
selection more, and each corner case can be taken; so a visit never reports a path that is
too deep or a choice that is refused, however much of the menu lies behind it. A
configuration is turned down for its depth exactly if the bound says so.
-/
theorem visited_sound_and_tooManyPlaceholders_iff (limits : Limits) (config : Config)
    (complaint : String → Option String) :
    (∀ menu, Menu.compile limits config.template = .ok menu → exceedsDepth menu = false →
      ∀ p, (searchOf menu config complaint).Visited p →
        (menu.status p = .complete ∨
          ∃ parameter, menu.pending p = some parameter ∧
            p.selections.length < limits.maxPlaceholders.toNat ∧
            ∀ c ∈ corners parameter.choices, ∃ next, menu.advance p c.id = .ok next) ∧
        ∀ left,
          (∀ max, ((searchOf menu config complaint).visit left p).verdict ≠
            .error (.tooManyPlaceholders max)) ∧
          ∀ position refusal, ((searchOf menu config complaint).visit left p).verdict ≠
            .error (.refusedChoice position refusal)) ∧
    ∀ max, validate limits config complaint = .error (.tooManyPlaceholders max) ↔
      firstReserved 0 config.template.toList = none ∧
        ∃ menu, Menu.compile limits config.template = .ok menu ∧ menu.parameters ≠ [] ∧
          exceedsDepth menu = true ∧ max = limits.maxPlaceholders.toNat := by
  constructor
  · intro menu hmenu hdepth p hp
    have hcompiled := Menu.compiledFrom_of_compile hmenu
    have hm : (searchOf menu config complaint).menu.Numbered := hcompiled.numbered
    have hopen := Search.complete_or_open_of_visited hm hdepth hp
    rw [Search.maxPlaceholders, searchOf, hcompiled.limits_eq] at hopen
    refine ⟨hopen, fun left => ⟨?_, ?_⟩⟩
    · intro max h
      exact Search.fromSearch_of_visited hm hdepth hp h
    · intro position refusal h
      exact Search.fromSearch_of_visited hm hdepth hp h
  · intro max
    have hkind : ¬ (ConfigError.tooManyPlaceholders max).FromSearch := not_false
    rw [validate_eq_error_iff_of_not_fromSearch hkind, upFront_eq_tooManyPlaceholders_iff]

/-- Where all corner cases of the first placeholder are direct choices, the bound lets one more
placeholder pass than there may be selections. The number in the middle is never visited. -/
theorem visited_direct_extremes :
    ∃ menu, Menu.compile { maxPlaceholders := 1 } "{A:1@!One/2/3@!Three}+{B:x/y}" = .ok menu ∧
      exceedsDepth menu = false ∧ menu.limits.maxPlaceholders.toNat < menu.size ∧
      ∀ complaint p left max,
        (searchOf menu { template := "{A:1@!One/2/3@!Three}+{B:x/y}" } complaint).Visited p →
          ((searchOf menu { template := "{A:1@!One/2/3@!Three}+{B:x/y}" } complaint).visit
            left p).verdict ≠ .error (.tooManyPlaceholders max) := by
  obtain ⟨menu, hmenu, hview⟩ := exists_of_map_ok (by cbv :
    (Menu.compile { maxPlaceholders := 1 } "{A:1@!One/2/3@!Three}+{B:x/y}").map
      (fun menu => (exceedsDepth menu, menu.limits.maxPlaceholders.toNat, menu.size)) =
        .ok (false, 1, 2))
  obtain ⟨hdepth, hsizes⟩ := Prod.mk.inj hview
  obtain ⟨hmax, hsize⟩ := Prod.mk.inj hsizes
  refine ⟨menu, hmenu, hdepth, by rw [hmax, hsize]; decide, ?_⟩
  intro complaint p left max hp
  have h := visited_sound_and_tooManyPlaceholders_iff { maxPlaceholders := 1 }
    { template := "{A:1@!One/2/3@!Three}+{B:x/y}" } complaint
  exact ((h.1 menu hmenu hdepth p hp).2 left).1 max

end Validation

end RollMenu
