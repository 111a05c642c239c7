import Mathlib
import RollMenu.Proofs.HonestRun
import RollMenu.Proofs.Shown

/-!
# No dead ends

A selection that is not complete can be carried on, and it can not be carried on for ever. It is
complete when all placeholders are filled, or when its last value is found to be a direct
choice, which may be another choice than the one that was clicked if the two share a value.
This makes no difference to the user who keeps clicking, because the menu looks the value up in
the same way whenever it asks.

A click counts if it is neither ignored nor on the clear button. `Counted` says what it does:
there is one more value, the selection still replays, the user holds it, and it is completed
exactly if nothing is pending any more. A selection that replays has no more values than there
are placeholders, so this bounds the runs in which every click counts. The main statement adds
that there is something to press at every moment before the end, and nothing after it.
-/

namespace RollMenu

namespace Menu

variable {m : Menu} {p q : Progress} {clicked user : String} {clicks : List String}
  {format : AnswerFormat} {target : Option UInt64} {parameter : Parameter}

/-! ## Something to press -/

/-- The prompt shows the button of the choice. -/
def Offers (m : Menu) (p : Progress) (target : Option UInt64) (format : AnswerFormat)
    (c : Choice) : Prop :=
  (∃ parameter, m.pending p = some parameter ∧ c ∈ parameter.choices) ∧
    m.choiceButton p target c ∈ (m.prompt p target format).buttons

/-- **Where a parameter is pending there is a button of a choice.** -/
theorem exists_offers (hne : parameter.choices ≠ []) (hp : m.pending p = some parameter)
    (target : Option UInt64) (format : AnswerFormat) : ∃ c, m.Offers p target format c := by
  obtain ⟨c, hc⟩ := List.exists_mem_of_ne_nil _ hne
  refine ⟨c, ⟨parameter, hp, hc⟩, ?_⟩
  rw [buttons_prompt_of_pending hp, buttons, hp]
  exact List.mem_append_left _ (List.mem_map_of_mem hc)

/-- Nothing but the clear button does anything to a complete selection. -/
theorem click_of_complete (hfree : lockedOut p user = none) (hclear : clicked ≠ clearClick)
    (hcheck : m.checkSelections p.selections = .ok ()) (hp : m.pending p = none)
    (format : AnswerFormat) : m.click p clicked user format = .ignored p .alreadyComplete := by
  have hadvance : m.advance p clicked = .error .alreadyComplete := by rw [advance, hp]
  rw [click, hfree]
  simp only [if_neg hclear, hcheck, hadvance]

/-- A selection that replays has no more values than there are placeholders. -/
theorem length_le_size_of_checkSelections {vs : List String} (h : m.checkSelections vs = .ok ()) :
    vs.length ≤ m.size := by
  obtain ⟨choices, rfl, hoffered⟩ := exists_choices_of_replay h
  have hlength := hoffered.length_eq
  rw [List.length_map, List.length_take] at hlength
  rw [List.length_map, hlength]
  exact Nat.min_le_right _ _

/-! ## One click -/

/-- One more value has been selected by the user. -/
structure Grows (m : Menu) (user : String) (p q : Progress) : Prop where
  length : q.selections.length = p.selections.length + 1
  lock : q.lock = some user
  replays : m.checkSelections q.selections = .ok ()

/-- What a click that counts comes to. -/
inductive Counted (m : Menu) (user : String) (p : Progress) : Outcome → Prop where
  | continued {q : Progress} {next : Parameter} (hq : m.Grows user p q)
      (hnext : m.pending q = some next) : Counted m user p (.continued q)
  | completed {q : Progress} {roll : RollRequest} (hq : m.Grows user p q)
      (hnext : m.pending q = none) : Counted m user p (.completed q roll)

theorem grows_choose {c : Choice} (hcheck : m.checkSelections p.selections = .ok ())
    (hp : m.pending p = some parameter) (hc : c ∈ parameter.choices) :
    m.Grows user p (p.choose c user) :=
  ⟨List.length_append, rfl, checkSelections_choose hcheck hp hc⟩

/-- **A click that is taken and does not clear counts.** -/
theorem counted_of_taken (hclear : clicked ≠ clearClick)
    (h : (m.click p clicked user format).Taken) :
    m.Counted user p (m.click p clicked user format) := by
  have hcase := m.click_cases p clicked user format
  generalize m.click p clicked user format = outcome at hcase h
  cases hcase with
  | locked | forged | refused => cases h
  | cleared _ hcleared => exact absurd hcleared hclear
  | continued _ _ hcheck hp hc hnext =>
    exact .continued (grows_choose hcheck hp (Parameter.mem_of_choice hc)) hnext
  | completed _ _ hcheck hp hc hroll =>
    refine .completed (grows_choose hcheck hp (Parameter.mem_of_choice hc)) ?_
    -- something pending would leave nothing to roll
    refine Option.eq_none_iff_forall_ne_some.mpr fun next hnext => ?_
    rw [rollRequest_eq_none_iff.mpr ⟨next, hnext⟩] at hroll
    cases hroll

/-! ## Runs -/

/-- Clicks of a user one after another that all count. -/
def Onward (m : Menu) (user : String) (format : AnswerFormat) (p : Progress)
    (clicks : List String) : Prop :=
  clearClick ∉ clicks ∧ ∀ outcome ∈ m.outcomes user format p clicks, outcome.Taken

theorem onward_cons_iff :
    m.Onward user format p (clicked :: clicks) ↔
      clicked ≠ clearClick ∧ (m.click p clicked user format).Taken ∧
        m.Onward user format (m.click p clicked user format).progress clicks := by
  rw [Onward, Onward, outcomes, List.forall_mem_cons, List.mem_cons, not_or]
  constructor
  · rintro ⟨⟨hclear, hclears⟩, htaken, htakens⟩
    exact ⟨Ne.symm hclear, htaken, hclears, htakens⟩
  · rintro ⟨hclear, htaken, hclears, htakens⟩
    exact ⟨⟨Ne.symm hclear, hclears⟩, htaken, htakens⟩

theorem onward_concat_iff :
    m.Onward user format p (clicks ++ [clicked]) ↔
      m.Onward user format p clicks ∧ clicked ≠ clearClick ∧
        (m.click (m.arrival user format p clicks) clicked user format).Taken := by
  induction clicks generalizing p with
  | nil =>
    rw [List.nil_append, onward_cons_iff]
    simp [Onward, outcomes, arrival]
  | cons click clicks ih =>
    rw [List.cons_append, onward_cons_iff, onward_cons_iff, ih]
    simp only [arrival, List.foldl_cons, and_assoc]

/-- What a run comes to in which every click counts. -/
inductive RunCase (m : Menu) (user : String) (q : Progress) : List Outcome → Prop where
  /-- Every click goes on and so can the next one. -/
  | going (shown : List Progress) {next : Parameter} (hfree : lockedOut q user = none)
      (hnext : m.pending q = some next) : RunCase m user q (shown.map Outcome.continued)
  /-- The last click completes the selection. -/
  | ended (shown : List Progress) {roll : RollRequest} (hfree : lockedOut q user = none)
      (hnext : m.pending q = none) :
      RunCase m user q (shown.map Outcome.continued ++ [.completed q roll])

theorem RunCase.cons {outcomes : List Outcome} (h : m.RunCase user q outcomes) (p : Progress) :
    m.RunCase user q (.continued p :: outcomes) := by
  cases h with
  | going shown hfree hnext => exact .going (p :: shown) hfree hnext
  | ended shown hfree hnext => exact .ended (p :: shown) hfree hnext

/-- **A run grows by one value with each click and ends where nothing is pending.** By induction
on the clicks: after a click that goes on the rest is such a run, and after one that completes
the selection no other click counts. -/
theorem runCase_of_onward (hfree : lockedOut p user = none)
    (hcheck : m.checkSelections p.selections = .ok ()) (hp : m.pending p = some parameter)
    (h : m.Onward user format p clicks) :
    m.RunCase user (m.arrival user format p clicks) (m.outcomes user format p clicks) ∧
      (m.arrival user format p clicks).selections.length = p.selections.length + clicks.length ∧
      m.checkSelections (m.arrival user format p clicks).selections = .ok () := by
  induction clicks generalizing p parameter with
  | nil => exact ⟨.going [] hfree hp, rfl, hcheck⟩
  | cons clicked clicks ih =>
    obtain ⟨hclear, htaken, hrest⟩ := onward_cons_iff.mp h
    have hcounted := counted_of_taken hclear htaken
    rw [outcomes, arrival, List.foldl_cons, ← arrival]
    generalize m.click p clicked user format = outcome at hcounted hrest
    cases hcounted with
    | @continued q next hq hnext =>
      obtain ⟨hcase, hlength, hreplays⟩ :=
        ih (lockedOut_eq_none_iff.mpr (Or.inr hq.lock)) hq.replays hnext hrest
      refine ⟨hcase.cons q, ?_, hreplays⟩
      rw [Outcome.progress, hlength, hq.length, List.length_cons]
      omega
    | @completed q roll hq hnext =>
      have hfree' : lockedOut q user = none := lockedOut_eq_none_iff.mpr (Or.inr hq.lock)
      cases clicks with
      | nil => exact ⟨.ended [] hfree' hnext, hq.length, hq.replays⟩
      | cons other clicks =>
        obtain ⟨hclear', htaken', -⟩ := onward_cons_iff.mp hrest
        rw [Outcome.progress, click_of_complete hfree' hclear' hq.replays hnext] at htaken'
        cases htaken'

/--
**There are no dead ends, and runs are bounded.** At every selection that clicks can lead to and
that is not complete, the prompt shows the button of a choice. Let a user click from there on
whom no lock keeps out, never clear and never be ignored. Then there are no more clicks than
placeholders to fill, and all of them go on except perhaps the last. As long as none has
completed the selection, each button of a choice that is shown carries the run on. Once one has,
whatever else than clear the user clicks is ignored, because the selection is complete.
-/
theorem onward_of_reachable {limits : Limits} {source : String} (hm : compile limits source = .ok m)
    (hr : Reachable m p) (hopen : m.status p ≠ .complete) (target : Option UInt64)
    (format : AnswerFormat) :
    (∃ c, m.Offers p target format c) ∧
    ∀ user clicks, lockedOut p user = none → m.Onward user format p clicks →
      clicks.length ≤ m.size - p.selections.length ∧
      ((∃ shown : List Progress,
          m.outcomes user format p clicks = shown.map Outcome.continued ∧
          (∃ c, m.Offers (m.arrival user format p clicks) target format c) ∧
          ∀ c, m.Offers (m.arrival user format p clicks) target format c →
            m.Onward user format p (clicks ++ [c.id])) ∨
        ∃ (shown : List Progress) (last : Progress) (roll : RollRequest),
          m.outcomes user format p clicks =
            shown.map Outcome.continued ++ [.completed last roll] ∧
          ∀ clicked format', clicked ≠ clearClick →
            m.click last clicked user format' = .ignored last .alreadyComplete) := by
  have hcompiled := compiledFrom_of_compile hm
  have hoffers : ∀ {p parameter}, m.pending p = some parameter →
      ∃ c, m.Offers p target format c := fun hp =>
    exists_offers (hcompiled.parameter _ (mem_of_pending hp)).choices_ne_nil hp target format
  obtain ⟨parameter, hp⟩ := status_ne_complete_iff.mp hopen
  refine ⟨hoffers hp, fun user clicks hfree honward => ?_⟩
  obtain ⟨hcase, hlength, hreplays⟩ :=
    runCase_of_onward hfree (checkSelections_reachable hr) hp honward
  have hle := length_le_size_of_checkSelections hreplays
  refine ⟨by omega, ?_⟩
  generalize houtcomes : m.outcomes user format p clicks = outcomes at hcase
  cases hcase with
  | going shown hfree' hnext =>
    refine Or.inl ⟨shown, rfl, hoffers hnext, ?_⟩
    rintro c ⟨⟨next, hnext', hc⟩, -⟩
    have hnumbered := hcompiled.numbered next (mem_of_pending hnext')
    refine onward_concat_iff.mpr ⟨honward, hnumbered.id_ne_clearClick hc, ?_⟩
    rw [click_id format hcompiled.numbered hfree' hreplays hnext' hc]
    split
    · exact .completed _ _
    · exact .continued _
  | ended shown hfree' hnext =>
    exact Or.inr ⟨shown, _, _, rfl, fun clicked format' hclear =>
      click_of_complete hfree' hclear hreplays hnext format'⟩

/-- The direct one of two choices that share a value does not end the selection. Another direct
choice does, with a placeholder left. -/
theorem onward_of_reachable_shared_value :
    ∃ m, compile {} "{A:1@x/1@!y/2}+{B:3/4@!Four}+{C:5/6}" = .ok m ∧
      ∃ p, m.click {} "id2" "alice" .full = .continued p ∧ Reachable m p ∧
        m.status p ≠ .complete ∧ m.Onward "alice" .full p ["id2"] ∧
        ["id2"].length ≤ m.size - p.selections.length ∧
        ∃ last roll, m.outcomes "alice" .full p ["id2"] = [.completed last roll] ∧
          roll.expression = "1+4+''" ∧
          ∀ clicked, clicked ≠ clearClick →
            m.click last clicked "alice" .full = .ignored last .alreadyComplete := by
  obtain ⟨m, hm, hview⟩ := exists_of_map_ok (by cbv :
    (compile {} "{A:1@x/1@!y/2}+{B:3/4@!Four}+{C:5/6}").map (fun m =>
      (m.click {} "id2" "alice" .full, m.status { selections := ["1"], lock := some "alice" },
        m.outcomes "alice" .full { selections := ["1"], lock := some "alice" } ["id2"])) =
      .ok (.continued { selections := ["1"], lock := some "alice" }, .partly 1,
        [.completed { selections := ["1", "4"], lock := some "alice" }
          { expression := "1+4+''", label := none }]))
  simp only [Prod.mk.injEq] at hview
  obtain ⟨hclick, hstatus, hrun⟩ := hview
  have hr : Reachable m { selections := ["1"], lock := some "alice" } :=
    Reachable.of_click .init hclick
  have hopen : m.status { selections := ["1"], lock := some "alice" } ≠ .complete := by
    simp [hstatus]
  have honward : m.Onward "alice" .full { selections := ["1"], lock := some "alice" } ["id2"] := by
    refine ⟨by decide, ?_⟩
    rw [hrun]
    exact List.forall_mem_singleton.mpr (.completed _ _)
  obtain ⟨-, hruns⟩ := onward_of_reachable hm hr hopen none .full
  obtain ⟨hlength, ⟨shown, hgoing, -⟩ | ⟨shown, last, roll, hended, hover⟩⟩ :=
    hruns "alice" ["id2"] rfl honward
  · rw [hrun] at hgoing
    cases shown <;> cases hgoing
  · rw [hrun, ← List.nil_append [_]] at hended
    obtain ⟨-, hlast⟩ := List.append_inj' hended rfl
    obtain ⟨rfl, rfl⟩ := Outcome.completed.inj (List.cons.inj hlast).1
    exact ⟨m, hm, _, hclick, hr, hopen, honward, hlength, _, _, hrun, rfl,
      fun clicked hclear => hover clicked .full hclear⟩

end Menu

end RollMenu
