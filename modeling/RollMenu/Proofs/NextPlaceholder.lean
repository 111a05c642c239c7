import Mathlib
import RollMenu.Proofs.Reachable
import RollMenu.Proofs.Substitution

/-!
# Where a choice leads

Compiling a template writes down for every choice which placeholder is asked for after it, or
that none is. Clicks never read this. They find out what is pending from the number of values
that have been selected and from looking the last one up again.

The two agree where no placeholder offers a value twice. Then the last value leads back to the
choice that was clicked, and parameters stand in the order of their placeholders. The main
statement says so of every selection that clicks can lead to: what is pending after a choice is
what the choice points to, and a click on it completes the selection exactly if it points to
nothing.
-/

namespace RollMenu

namespace Menu

variable {m : Menu} {limits : Limits} {source : String} {p q : Progress} {parameter : Parameter}
  {c : Choice}

/-- What compiling writes down for a choice: the placeholder behind its own, unless the choice is
direct or there is none. -/
theorem next_of_compile (hm : compile limits source = .ok m) {i : Nat}
    (hget : m.parameters[i]? = some parameter) (hc : c ∈ parameter.choices) :
    c.next = if c.direct then none else if i + 1 < m.size then some (i + 1) else none := by
  have haligned := aligned_of_compile hm
  obtain ⟨-, -, hexpand⟩ := compile_ok hm
  obtain ⟨placeholder, -, hparameter⟩ :=
    exists_of_forall₂_of_mem hexpand (List.mem_of_getElem? hget)
  obtain ⟨choices, hchoices, -⟩ := exists_of_bind_ok hparameter
  rw [choices_of_expand hchoices hparameter, ← placeholder_of_expand hparameter,
    haligned.index_eq hget, ← haligned.size_eq] at hc
  obtain ⟨d, -, rfl⟩ := List.mem_map.mp hc
  rfl

/-- What is pending after one more choice, as long as no other one has its value. -/
theorem pending_append (hp : m.pending p = some parameter)
    (hnodup : (parameter.choices.map Choice.value).Nodup) (hc : c ∈ parameter.choices)
    (hq : q.selections = p.selections ++ [c.value]) :
    m.pending q = if c.direct then none else m.parameters[p.selections.length + 1]? := by
  have hget := (pending_eq_some_iff.mp hp).2
  have hended := endedDirectly_append hget hnodup hc hq
  have hlength : q.selections.length = p.selections.length + 1 := by
    rw [hq, List.length_append, List.length_singleton]
  refine Option.ext fun next => ?_
  rw [pending_eq_some_iff, hended, hlength]
  cases c.direct <;> simp

/-- **After a choice the parameter is pending that the choice points to**, or none. -/
theorem pending_eq_next (hm : compile limits source = .ok m) (hp : m.pending p = some parameter)
    (hnodup : (parameter.choices.map Choice.value).Nodup) (hc : c ∈ parameter.choices)
    (hq : q.selections = p.selections ++ [c.value]) :
    m.pending q = c.next.bind fun i => m.parameters[i]? := by
  rw [pending_append hp hnodup hc hq, next_of_compile hm (pending_eq_some_iff.mp hp).2 hc]
  cases c.direct with
  | true => rfl
  | false =>
    by_cases hlt : p.selections.length + 1 < m.size
    · simp [hlt]
    · -- past the last parameter there is none
      have hnone : m.parameters[p.selections.length + 1]? = none :=
        List.getElem?_eq_none_iff.mpr (Nat.le_of_not_lt hlt)
      simp [hlt, hnone]

/-- Pointers lead to parameters. -/
theorem exists_of_next (hm : compile limits source = .ok m) {i j : Nat}
    (hget : m.parameters[i]? = some parameter) (hc : c ∈ parameter.choices)
    (hnext : c.next = some j) : ∃ next, m.parameters[j]? = some next := by
  rw [next_of_compile hm hget hc] at hnext
  split at hnext
  · cases hnext
  split at hnext
  · rename_i hlt
    obtain rfl := Option.some.inj hnext
    exact ⟨_, List.getElem?_eq_getElem hlt⟩
  · cases hnext

/--
**Pointers agree with the machine.** Let clicks have led to a selection whose pending placeholder
offers no value twice. Advancing by the id of one of its choices appends the value of this choice.
If the choice points to a parameter, there is one at this index and it is pending now. If the
choice points to none, the selection is complete, and only then. So whoever clicks the button of
the choice without being locked out is asked to go on in the first case and given the roll in the
second.
-/
theorem pending_eq_of_next (hm : compile limits source = .ok m) (hr : Reachable m p)
    (hp : m.pending p = some parameter) (hnodup : (parameter.choices.map Choice.value).Nodup)
    (hc : c ∈ parameter.choices) :
    ∃ q, m.advance p c.id = .ok q ∧ q.selections = p.selections ++ [c.value] ∧
      (∀ i, c.next = some i → ∃ next, m.parameters[i]? = some next ∧ m.pending q = some next) ∧
      (m.status q = .complete ↔ c.next = none) ∧ (m.pending q = none ↔ c.next = none) ∧
      ∀ user format, lockedOut p user = none →
        (c.next ≠ none → m.click p c.id user format = .continued (p.choose c user)) ∧
        (c.next = none →
          ∃ roll, m.click p c.id user format = .completed (p.choose c user) roll) := by
  have hnumbered := numbered_of_compile hm
  have hget := (pending_eq_some_iff.mp hp).2
  -- whoever holds the selection, the next parameter is that of the pointer
  have hpending : ∀ {q : Progress}, q.selections = p.selections ++ [c.value] →
      (m.pending q = none ↔ c.next = none) := by
    intro q hq
    rw [pending_eq_next hm hp hnodup hc hq]
    cases hnext : c.next with
    | none => exact iff_of_true rfl rfl
    | some i =>
      obtain ⟨next, hi⟩ := exists_of_next hm hget hc hnext
      simp [hi]
  refine ⟨{ p with selections := p.selections ++ [c.value] },
    advance_eq_ok_iff.mpr ⟨parameter, c, hp,
      (hnumbered parameter (mem_of_pending hp)).choice_id hc, rfl⟩,
    rfl, fun i hnext => ?_, status_eq_complete_iff.trans (hpending rfl), hpending rfl,
    fun user format hfree => ?_⟩
  · obtain ⟨next, hi⟩ := exists_of_next hm hget hc hnext
    exact ⟨next, hi, by rw [pending_eq_next hm hp hnodup hc rfl, hnext, Option.bind_some, hi]⟩
  · have hclick := click_id format hnumbered hfree (checkSelections_reachable hr) hp hc
    have hopen := hpending (q := p.choose c user) rfl
    cases hroll : m.rollRequest (p.choose c user) format with
    | none =>
      obtain ⟨next, hnext⟩ := rollRequest_eq_none_iff.mp hroll
      rw [hroll] at hclick
      refine ⟨fun _ => hclick, fun hnone => ?_⟩
      rw [hopen.mpr hnone] at hnext
      cases hnext
    | some roll =>
      rw [hroll] at hclick
      refine ⟨fun hsome => ?_, fun _ => ⟨roll, hclick⟩⟩
      obtain ⟨next, hnext⟩ := Option.ne_none_iff_exists'.mp (mt hopen.mp hsome)
      rw [rollRequest_eq_none_iff.mpr ⟨next, hnext⟩] at hroll
      cases hroll

/-- A direct choice in the middle, whose id is the value of the other choice. -/
theorem pending_eq_of_next_direct :
    ∃ m, compile {} "{A:1/2}+{B:id2@x/4@!Four}+{C:5/6}" = .ok m ∧ m.size = 3 ∧
      ∃ p q, m.click {} "id1" "alice" .full = .continued p ∧ Reachable m p ∧
        m.advance p "id2" = .ok q ∧ q.selections = ["1", "4"] ∧ m.status q = .complete := by
  obtain ⟨m, hm, hview⟩ := exists_of_map_ok (by cbv :
    (compile {} "{A:1/2}+{B:id2@x/4@!Four}+{C:5/6}").map (fun m =>
      (m.size, m.click {} "id1" "alice" .full,
        (m.pending { selections := ["1"], lock := some "alice" }).map Parameter.choices)) =
      .ok (3, .continued { selections := ["1"], lock := some "alice" },
        some [{ value := "id2", label := "x", id := "id1", direct := false, next := some 2 },
          { value := "4", label := "Four", id := "id2", direct := true, next := none }]))
  simp only [Prod.mk.injEq, Option.map_eq_some_iff] at hview
  obtain ⟨hsize, hclick, parameter, hp, hchoices⟩ := hview
  have hr : Reachable m { selections := ["1"], lock := some "alice" } :=
    Reachable.of_click .init hclick
  have hnodup : (parameter.choices.map Choice.value).Nodup := by
    rw [hchoices]
    decide
  have hc : { value := "4", label := "Four", id := "id2", direct := true, next := none } ∈
      parameter.choices := by
    rw [hchoices]
    decide
  obtain ⟨q, hadvance, hq, -, hcomplete, -⟩ := pending_eq_of_next hm hr hp hnodup hc
  exact ⟨m, hm, hsize, _, q, hclick, hr, hadvance, hq, hcomplete.mpr rfl⟩

end Menu

end RollMenu
