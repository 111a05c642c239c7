import Mathlib
import RollMenu.Proofs.Replay

/-!
# Reachable selections

A message starts with nothing selected, and from there only clicks lead anywhere: by any
user, on anything, whether the menu takes them or not. Between two clicks nothing is
remembered but the selection itself, which the buttons carry around. So a menu can not
look back at the clicks that led to a selection, and replays the values instead.

The main statement says that nothing is lost by that. The replay accepts exactly the
selections that some run of clicks leads to.
-/

namespace RollMenu

/-- The selections that clicks can lead to. -/
inductive Reachable (m : Menu) : Progress → Prop where
  | init : Reachable m {}
  | tail {p : Progress} (hr : Reachable m p) (clicked user : String) (format : AnswerFormat) :
      Reachable m (m.click p clicked user format).progress

/-- Whatever a click comes to, its selection is reached. -/
theorem Reachable.of_click {m : Menu} {p : Progress} {clicked user : String}
    {format : AnswerFormat} {outcome : Outcome} (hr : Reachable m p)
    (h : m.click p clicked user format = outcome) : Reachable m outcome.progress :=
  h ▸ hr.tail clicked user format

namespace Menu

variable {m : Menu}

/-! ## Clicks keep a selection replayable -/

/-- A click that is taken leaves a selection that replays, whatever it was made on. -/
theorem checkSelections_of_taken {p : Progress} {clicked user : String} {format : AnswerFormat}
    (h : (m.click p clicked user format).Taken) :
    m.checkSelections (m.click p clicked user format).progress.selections = .ok () := by
  have hcase := m.click_cases p clicked user format
  generalize m.click p clicked user format = outcome at hcase h
  cases hcase with
  | locked | forged | refused => cases h
  | cleared => exact checkSelections_nil
  | continued _ _ hcheck hp hc | completed _ _ hcheck hp hc =>
    exact checkSelections_choose hcheck hp (Parameter.mem_of_choice hc)

theorem checkSelections_click {p : Progress} (h : m.checkSelections p.selections = .ok ())
    (clicked user : String) (format : AnswerFormat) :
    m.checkSelections (m.click p clicked user format).progress.selections = .ok () := by
  rcases m.taken_or_ignored p clicked user format with htaken | ⟨why, hignored⟩
  · exact checkSelections_of_taken htaken
  · rw [hignored]
    exact h

theorem checkSelections_reachable {p : Progress} (h : Reachable m p) :
    m.checkSelections p.selections = .ok () := by
  induction h with
  | init => exact checkSelections_nil
  | tail _ clicked user format ih => exact checkSelections_click ih clicked user format

/-! ## Every replayable selection is reachable -/

/-- The choices of a menu are numbered, so each button names one of them. -/
def Numbered (m : Menu) : Prop := ∀ parameter ∈ m.parameters, parameter.Numbered

theorem CompiledFrom.numbered {limits : Limits} {source : String}
    (h : m.CompiledFrom source limits) : m.Numbered :=
  fun p hp => (h.parameter p hp).numbered

theorem numbered_of_compile {limits : Limits} {source : String}
    (h : compile limits source = .ok m) : m.Numbered :=
  (compiledFrom_of_compile h).numbered

theorem mem_of_pending {p : Progress} {parameter : Parameter} (h : m.pending p = some parameter) :
    parameter ∈ m.parameters :=
  List.mem_of_getElem? (pending_eq_some_iff.mp h).2

end Menu

/-- The id of a choice is not the click of the clear button. -/
theorem Parameter.Numbered.id_ne_clearClick {p : Parameter} {c : Choice} (hp : p.Numbered)
    (hc : c ∈ p.choices) : c.id ≠ clearClick := by
  obtain ⟨i, hi⟩ := hp.exists_idAt hc
  intro h
  rw [hi] at h
  have hhead := congrArg (fun text : String => text.toList.head?) h
  simp [Choice.idAt, clearClick] at hhead

namespace Menu

variable {m : Menu} {p : Progress} {user : String}

/-- A click on the button of a choice. -/
theorem click_id {parameter : Parameter} {c : Choice} (format : AnswerFormat) (hm : m.Numbered)
    (hfree : lockedOut p user = none) (hcheck : m.checkSelections p.selections = .ok ())
    (hp : m.pending p = some parameter) (hc : c ∈ parameter.choices) :
    m.click p c.id user format =
      match m.rollRequest (p.choose c user) format with
      | some roll => .completed (p.choose c user) roll
      | none => .continued (p.choose c user) := by
  have hnumbered := hm parameter (mem_of_pending hp)
  exact click_of_choice hfree (hnumbered.id_ne_clearClick hc) hcheck hp (hnumbered.choice_id hc)

theorem progress_click_id {parameter : Parameter} {c : Choice} (format : AnswerFormat)
    (hm : m.Numbered) (hfree : lockedOut p user = none)
    (hcheck : m.checkSelections p.selections = .ok ()) (hp : m.pending p = some parameter)
    (hc : c ∈ parameter.choices) :
    (m.click p c.id user format).progress = p.choose c user := by
  rw [click_id format hm hfree hcheck hp hc]
  split <;> rfl

/-- One user clicking from the start gets to every selection that replays. -/
theorem reachable_of_checkSelections (hm : m.Numbered) (user : String) {vs : List String}
    (h : m.checkSelections vs = .ok ()) :
    ∃ p, Reachable m p ∧ p.selections = vs ∧ lockedOut p user = none := by
  induction vs using List.reverseRecOn with
  | nil => exact ⟨{}, .init, rfl, rfl⟩
  | append_singleton vs v ih =>
    obtain ⟨hcheck, parameter, c, hp, hc⟩ := checkSelections_concat_iff.mp h
    obtain ⟨hmem, rfl⟩ := Parameter.mem_of_choiceByValue hc
    obtain ⟨p, hr, rfl, hfree⟩ := ih hcheck
    -- one more click, on the choice that the replay finds for the value
    refine ⟨p.choose c user, ?_, rfl, lockedOut_eq_none_iff.mpr (Or.inr rfl)⟩
    rw [← progress_click_id .full hm hfree hcheck hp hmem]
    exact .tail hr c.id user .full

/-- **The replay accepts exactly the reachable selections.** Values that two choices share,
values that are ids of other choices and direct choices make no difference. -/
theorem checkSelections_eq_ok_iff_reachable {limits : Limits} {source : String}
    (hm : compile limits source = .ok m) (vs : List String) :
    m.checkSelections vs = .ok () ↔ ∃ p, Reachable m p ∧ p.selections = vs := by
  constructor
  · intro h
    obtain ⟨p, hr, hp, -⟩ := reachable_of_checkSelections (numbered_of_compile hm) "" h
    exact ⟨p, hr, hp⟩
  · rintro ⟨p, hr, rfl⟩
    exact checkSelections_reachable hr

/-- Two choices of one value, the second of them direct, and a value that is an id. -/
theorem checkSelections_eq_ok_iff_reachable_shared_value :
    ∃ m, compile {} "{A:1@x/1@!y/id1}+{B:2/id1}" = .ok m ∧
      (∃ p, Reachable m p ∧ p.selections = ["1", "id1"]) ∧
      ¬ ∃ p, Reachable m p ∧ p.selections = ["id1", "1"] := by
  obtain ⟨m, hm, hchecks⟩ := exists_of_map_ok (by cbv :
    (compile {} "{A:1@x/1@!y/id1}+{B:2/id1}").map (fun m =>
      (m.checkSelections ["1", "id1"], m.checkSelections ["id1", "1"])) =
        .ok (.ok (), .error (.notOffered "1" "{B:2/id1}")))
  obtain ⟨hok, herror⟩ := Prod.mk.inj hchecks
  refine ⟨m, hm, (checkSelections_eq_ok_iff_reachable hm _).mp hok, fun h => ?_⟩
  rw [(checkSelections_eq_ok_iff_reachable hm _).mpr h] at herror
  cases herror

end Menu

end RollMenu
