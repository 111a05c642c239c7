import RollMenu.Proofs.Explored
import RollMenu.Proofs.HonestRun

/-!
# What a rejected configuration suffers from

A configuration that the search turns down can not be set up at all, so a rejection for
nothing would cost its author a template that works. The search does not click through a
menu as users do: it appends values without lock or replay. The main statement says that
this makes no difference. Whatever it reports, one user can get there by clicking
buttons from the start: to a prompt with the button that is too long, to a placeholder
that offers the value twice, or to a roll that the engine refuses.

The argument follows the search down. A failure of a visit is found at the selection
itself or passed up from one of its branches, so in the end it was found at an explored
selection, and explored selections replay.
-/

namespace RollMenu

/-- The errors that nothing but the search through a menu reports. -/
def ConfigError.FromSearch : ConfigError → Prop
  | .idTooLong _ _ _ | .duplicateValue _ _ | .expressionInvalid _ _ => True
  | _ => False

/-! ## Errors from before the search -/

theorem exists_of_mapM_error {α β ε : Type} {f : α → Except ε β} {xs : List α} {e : ε}
    (h : xs.mapM f = .error e) : ∃ x ∈ xs, f x = .error e := by
  induction xs with
  | nil => cases h
  | cons x xs ih =>
    rw [List.mapM_cons] at h
    cases hx : f x with
    | error e' =>
      rw [hx] at h
      obtain rfl : e' = e := Except.error.inj h
      exact ⟨x, List.mem_cons_self, hx⟩
    | ok y =>
      cases hxs : xs.mapM f with
      | error e' =>
        rw [hx, hxs] at h
        obtain rfl : e' = e := Except.error.inj h
        obtain ⟨z, hz, he⟩ := ih hxs
        exact ⟨z, List.mem_cons_of_mem x hz, he⟩
      | ok ys =>
        rw [hx, hxs] at h
        cases h

theorem Menu.expand_error {formats : List SpecFormat} {limits : Limits} {count : Nat}
    {p : Placeholder} {e : ConfigError} (h : expand formats limits count p = .error e) :
    e = .noChoice p.expression := by
  unfold expand at h
  cases hchoices : Spec.choices formats limits p.expression p.spec with
  | error e' =>
    rw [hchoices] at h
    obtain rfl : e' = e := Except.error.inj h
    unfold Spec.choices at hchoices
    split at hchoices
    · cases hchoices
    · exact (Except.error.inj hchoices).symm
    · cases hchoices
  | ok choices =>
    rw [hchoices] at h
    by_cases hempty : choices.isEmpty = true
    · exact (Except.error.inj ((if_pos hempty).symm.trans h)).symm
    · cases (if_neg hempty).symm.trans h

/-- A template that can not be compiled is malformed, or a placeholder of it offers nothing. -/
theorem Menu.compile_error {limits : Limits} {source : String} {e : ConfigError}
    (h : compile limits source = .error e) :
    (∃ fault, e = .malformed fault) ∨ ∃ expression, e = .noChoice expression := by
  unfold compile compileWith at h
  split at h
  · rename_i fault _
    obtain rfl := Except.error.inj h
    exact Or.inl ⟨fault, rfl⟩
  · rename_i t ht
    unfold ofTemplate at h
    cases hparameters : t.placeholders.mapM
        (expand ([] ++ Spec.builtin) limits t.slots.length) with
    | error e' =>
      rw [hparameters] at h
      obtain rfl : e' = e := Except.error.inj h
      obtain ⟨p, -, hp⟩ := exists_of_mapM_error hparameters
      exact Or.inr ⟨p.expression, expand_error hp⟩
    | ok parameters =>
      rw [hparameters] at h
      cases h

/-- A menu that is not empty asks for something first. -/
theorem Menu.exists_pending_of_nil {m : Menu} {p : Progress} (hne : m.parameters ≠ [])
    (hp : p.selections = []) : ∃ parameter, m.pending p = some parameter := by
  refine ⟨m.parameters.head hne, pending_eq_some_iff.mpr ⟨?_, ?_⟩⟩
  · rw [endedDirectly, hp]
    rfl
  · rw [hp, List.length_nil, ← List.head?_eq_getElem?, List.head?_eq_some_head hne]

namespace Validation

/-- None of the checks before the search reports what the search does. -/
theorem not_fromSearch_of_upFront {limits : Limits} {config : Config} {e : ConfigError}
    (h : upFront limits config = .error e) : ¬ e.FromSearch := by
  have hcase := upFront_cases limits config
  rw [h] at hcase
  cases hcase with
  | unreadable hmenu =>
    rcases Menu.compile_error hmenu with ⟨_, rfl⟩ | ⟨_, rfl⟩
    · exact not_false
    · exact not_false
  | reserved => exact not_false
  | empty => exact not_false
  | deep => exact not_false
  | wide => exact not_false

/-- So the search itself has reported the error, about a menu that is not empty. -/
theorem visit_of_validate_error {limits : Limits} {config : Config}
    {complaint : String → Option String} {e : ConfigError}
    (h : validate limits config complaint = .error e) (he : e.FromSearch) :
    ∃ menu, Menu.compile limits config.template = .ok menu ∧ menu.parameters ≠ [] ∧
      ((searchOf menu config complaint).visit menu.size {}).verdict = .error e := by
  rw [validate, report_eq] at h
  have hcase := upFront_cases limits config
  cases hupFront : upFront limits config with
  | error e' =>
    rw [hupFront] at h
    obtain rfl : e' = e := Except.error.inj h
    exact absurd he (not_fromSearch_of_upFront hupFront)
  | ok menu =>
    rw [hupFront] at h hcase
    cases hcase with
    | passed hmenu hne => exact ⟨menu, hmenu, hne, h⟩

/-! ## Where the search finds an error -/

namespace Search

variable {s : Search} {p : Progress} {left : Nat} {e : ConfigError}

/-- An error that the search finds at a selection, whatever lies ahead of it. -/
inductive Finding (s : Search) (p : Progress) : ConfigError → Prop where
  | defect {parameter : Parameter} {e : ConfigError} (hp : s.menu.pending p = some parameter)
      (h : s.defect p parameter = some e) : Finding s p e
  | invalid {roll : RollRequest} {message : String}
      (hroll : s.menu.rollRequest p s.format = some roll)
      (h : s.complaint roll.expression = some message) :
      Finding s p (.expressionInvalid roll.expression message)

theorem finding_of_askEngine (h : (s.askEngine p).verdict = .error e) : s.Finding p e := by
  unfold askEngine at h
  split at h
  · cases h
  · rename_i roll hroll
    dsimp only at h
    split at h
    · cases h
    · rename_i message hmessage
      obtain rfl := Except.error.inj h
      exact .invalid hroll hmessage

/-- **A visit that fails has found the error here or in one of the branches.** -/
theorem visit_error (hm : s.menu.Numbered) (h : (s.visit left p).verdict = .error e) :
    s.Finding p e ∨ ∃ parameter c n, left = n + 1 ∧ s.menu.pending p = some parameter ∧
      s.defect p parameter = none ∧ c ∈ corners parameter.choices ∧
      (s.visit n { p with selections := p.selections ++ [c.value] }).verdict = .error e := by
  cases hp : s.menu.pending p with
  | none =>
    rw [visit_of_complete hp] at h
    exact Or.inl (finding_of_askEngine h)
  | some parameter =>
    cases hdefect : s.defect p parameter with
    | some e' =>
      rw [visit_of_defect hp hdefect] at h
      obtain rfl : e' = e := Except.error.inj h
      exact Or.inl (.defect hp hdefect)
    | none =>
      cases left with
      | zero =>
        rw [visit_zero_of_fine hp hdefect] at h
        cases h
      | succ n =>
        rw [visit_of_fine hm hp hdefect, Report.verdict_inOrder] at h
        obtain ⟨c, hc, hbranch⟩ := exists_of_firstFailure h
        exact Or.inr ⟨parameter, c, n, rfl, rfl, hdefect, hc, hbranch⟩

/-- So it was found at an explored selection. -/
theorem exists_finding_of_visit (hm : s.menu.Numbered) (hp : Explored s.menu p)
    (h : (s.visit left p).verdict = .error e) : ∃ q, Explored s.menu q ∧ s.Finding q e := by
  induction left generalizing p with
  | zero =>
    rcases visit_error hm h with hfound | ⟨_, _, n, hleft, _⟩
    · exact ⟨p, hp, hfound⟩
    · exact absurd hleft (Nat.zero_ne_add_one n)
  | succ left ih =>
    rcases visit_error hm h with hfound | ⟨parameter, c, n, hleft, hpending, -, hc, hbranch⟩
    · exact ⟨p, hp, hfound⟩
    · obtain rfl := Nat.succ.inj hleft
      exact ih (.step hp hpending hc) hbranch

end Search

theorem checkSelections_of_explored {m : Menu} {p : Progress} (h : Explored m p) :
    m.checkSelections p.selections = .ok () := by
  induction h with
  | root => exact Menu.checkSelections_nil
  | @step p parameter c _ hp hc ih =>
    have hchoose : m.checkSelections (p.choose c "").selections = .ok () :=
      Menu.checkSelections_choose ih hp (mem_of_mem_corners hc)
    exact hchoose

/-! ## What is wrong there -/

theorem duplicate_of_firstRepeated {seen values : List String} {value : String}
    (h : firstRepeated seen values = some value) :
    value ∈ values ∧ (value ∈ seen ∨ List.Duplicate value values) := by
  induction values generalizing seen with
  | nil => cases h
  | cons v vs ih =>
    rw [firstRepeated] at h
    split at h
    · rename_i hseen
      obtain rfl := Option.some.inj h
      exact ⟨List.mem_cons_self, Or.inl (by simpa using hseen)⟩
    · obtain ⟨hmem, hbefore⟩ := ih h
      refine ⟨List.mem_cons_of_mem v hmem, ?_⟩
      rcases hbefore with hseen | hdup
      · rcases List.mem_cons.mp hseen with rfl | hseen
        · exact Or.inr (List.duplicate_cons_self_iff.mpr hmem)
        · exact Or.inl hseen
      · exact Or.inr (hdup.duplicate_cons v)

/-- A defect is a depth that is not allowed, a repeated value or a button that is too long. -/
theorem Search.defect_cases {s : Search} {p : Progress} {parameter : Parameter} {e : ConfigError}
    (h : s.defect p parameter = some e) :
    (s.maxPlaceholders ≤ p.selections.length ∧ e = .tooManyPlaceholders s.maxPlaceholders) ∨
    (∃ value, List.Duplicate value (parameter.choices.map Choice.value) ∧
      e = .duplicateValue parameter.placeholder.expression value) ∨
    ∃ b ∈ s.menu.buttons p s.target, s.menu.limits.maxIdLength.toNat < b.id.length ∧
      e = .idTooLong b.id b.id.length s.menu.limits.maxIdLength.toNat := by
  unfold defect at h
  split at h
  · rename_i hdeep
    exact Or.inl ⟨hdeep, (Option.some.inj h).symm⟩
  split at h
  · rename_i value hvalue
    obtain ⟨-, hseen | hdup⟩ := duplicate_of_firstRepeated hvalue
    · cases hseen
    · exact Or.inr (Or.inl ⟨value, hdup, (Option.some.inj h).symm⟩)
  · obtain ⟨b, hfind, he⟩ := Option.map_eq_some_iff.mp h
    have hlong := List.find?_some hfind
    exact Or.inr (Or.inr
      ⟨b, List.mem_of_find?_eq_some hfind, of_decide_eq_true hlong, he.symm⟩)

/-- One user who clicks choices from the start gets to what the error reports. -/
inductive RealDefect (limits : Limits) (flow : Flow) (complaint : String → Option String)
    (user : String) : ConfigError → Prop where
  /-- The prompt has a button with this id, which is too long. -/
  | tooLong {choices : List Choice} {p : Progress} {b : Button}
      (hoffered : flow.menu.Offered choices)
      (hp : flow.menu.Arrives user flow.config.answerFormat choices p)
      (hb : b ∈ (flow.prompt p).buttons) (hlong : limits.maxIdLength.toNat < b.id.length) :
      RealDefect limits flow complaint user
        (.idTooLong b.id b.id.length limits.maxIdLength.toNat)
  /-- The placeholder that is asked for offers the value at two positions. -/
  | repeated {choices : List Choice} {p : Progress} {parameter : Parameter} {value : String}
      (hoffered : flow.menu.Offered choices)
      (hp : flow.menu.Arrives user flow.config.answerFormat choices p)
      (hpending : flow.menu.pending p = some parameter)
      (hvalue : List.Duplicate value (parameter.choices.map Choice.value)) :
      RealDefect limits flow complaint user
        (.duplicateValue parameter.placeholder.expression value)
  /-- The last click completes the selection with a roll that the engine refuses. -/
  | refused {choices : List Choice} {roll : RollRequest} {message : String}
      (hoffered : flow.menu.Offered choices)
      (hroll : flow.menu.Rolls user flow.config.answerFormat choices roll)
      (hmessage : complaint roll.expression = some message) :
      RealDefect limits flow complaint user (.expressionInvalid roll.expression message)

/-- What the search finds at an explored selection is real. -/
theorem realDefect_of_finding {limits : Limits} {config : Config} {menu : Menu}
    {complaint : String → Option String} {p : Progress} {e : ConfigError}
    (hm : menu.CompiledFrom config.template limits) (hne : menu.parameters ≠ [])
    (hp : Explored menu p) (h : (searchOf menu config complaint).Finding p e)
    (he : e.FromSearch) (user : String) :
    RealDefect limits { config, menu } complaint user e := by
  have hcheck := checkSelections_of_explored hp
  cases h with
  | @defect parameter _ hpending hdefect =>
    obtain ⟨choices, q, hoffered, harrives, hselections⟩ :=
      Menu.arrives_of_checkSelections hm.numbered hcheck hpending user config.answerFormat
    -- the lock makes no difference to what is pending and what is shown
    have hq : menu.pending { selections := q.selections } = some parameter := by
      rw [hselections]
      exact hpending
    have hbuttons : menu.buttons { selections := q.selections } config.answerTarget =
        menu.buttons { selections := p.selections } config.answerTarget := by
      rw [hselections]
    rcases Search.defect_cases hdefect with ⟨-, rfl⟩ | ⟨value, hvalue, rfl⟩ | ⟨b, hb, hlong, rfl⟩
    · cases he
    · exact .repeated hoffered harrives hq hvalue
    · have hlimits : (searchOf menu config complaint).menu.limits = limits := hm.limits_eq
      rw [hlimits] at hlong ⊢
      refine .tooLong hoffered harrives ?_ hlong
      have hprompt : (menu.prompt q config.answerTarget config.answerFormat).buttons =
          menu.buttons q config.answerTarget := Menu.buttons_prompt_of_pending hq
      rw [Flow.prompt, hprompt]
      exact hbuttons ▸ hb
  | @invalid roll message hroll hmessage =>
    have hroll : menu.rollRequest p config.answerFormat = some roll := hroll
    have hselections : p.selections ≠ [] := by
      intro hnil
      have hpending := Menu.exists_pending_of_nil hne hnil
      rw [Menu.rollRequest_eq_none_iff.mpr hpending] at hroll
      cases hroll
    obtain ⟨choices, hoffered, hrolls⟩ :=
      Menu.rolls_of_checkSelections hm.numbered hcheck hselections hroll user
    exact .refused hoffered hrolls hmessage

/--
**Every rejection by the search is real.** If a configuration is turned down for a button
that is too long, for a repeated value or for an expression, then its template compiles,
and any one user gets to the reported button, value or roll by clicking choices in order.
-/
theorem realDefect_of_validate {limits : Limits} {config : Config}
    {complaint : String → Option String} {e : ConfigError}
    (h : validate limits config complaint = .error e) (he : e.FromSearch) :
    ∃ flow, Flow.ofConfig limits config = .ok flow ∧
      ∀ user, RealDefect limits flow complaint user e := by
  obtain ⟨menu, hmenu, hne, hvisit⟩ := visit_of_validate_error h he
  have hcompiled := Menu.compiledFrom_of_compile hmenu
  obtain ⟨p, hp, hfound⟩ := Search.exists_finding_of_visit
    (s := searchOf menu config complaint) hcompiled.numbered .root hvisit
  refine ⟨{ config, menu }, by rw [Flow.ofConfig, hmenu]; rfl, ?_⟩
  intro user
  exact realDefect_of_finding hcompiled hne hp hfound he user

/-- The first path is fine. The second one ends with a die that the engine refuses. -/
theorem realDefect_of_validate_no_sides :
    ∃ flow, Flow.ofConfig {} { template := "{Count:1/2}d{Sides:6/0}" } = .ok flow ∧
      RealDefect {} flow (fun source => if source = "1d0" then some "no sides" else none) "alice"
        (.expressionInvalid "1d0" "no sides") := by
  obtain ⟨flow, hflow, hreal⟩ := realDefect_of_validate (by cbv :
    validate {} { template := "{Count:1/2}d{Sides:6/0}" }
      (fun source => if source = "1d0" then some "no sides" else none) =
        .error (.expressionInvalid "1d0" "no sides")) trivial
  exact ⟨flow, hflow, hreal "alice"⟩

end Validation

end RollMenu
