import RollMenu.Click
import RollMenu.Proofs.Compile

/-!
# Replaying selections, and what one click can do

A selection is replayed in one pass over its values, while a menu takes it one click at
a time and asks before each click what is pending. The two meet in one equivalence,
`checkSelections_concat_iff`: a value may follow a selection that replays exactly if
the pending parameter offers it. Everything that is said of replayed selections is said
by induction from the right through this equivalence.

The second half is the inversion of a click. `click_cases` lists what a click can come
to together with everything the menu checked on the way, so later proofs never open
the definition.
-/

namespace RollMenu

namespace Menu

variable {m : Menu}

/-! ## What is pending -/

theorem complete_of_endedDirectly {p : Progress} (h : m.endedDirectly p = true) :
    m.status p = .complete := by
  rw [status, if_pos (by rw [h, Bool.or_true])]

/-- A parameter is pending when the last choice was not direct and there is one left. -/
theorem pending_eq_some_iff {p : Progress} {parameter : Parameter} :
    m.pending p = some parameter ↔
      m.endedDirectly p = false ∧ m.parameters[p.selections.length]? = some parameter := by
  unfold pending
  constructor
  · intro h
    split at h
    · cases h
    · rename_i hstatus
      cases hended : m.endedDirectly p with
      | true => exact absurd (complete_of_endedDirectly hended) hstatus
      | false => exact ⟨rfl, h⟩
  · rintro ⟨hended, hget⟩
    have hlt : p.selections.length < m.size := (List.getElem?_eq_some_iff.mp hget).1
    -- with a parameter left, only a direct choice could have completed the selection
    split
    · rename_i hstatus
      rw [status, hended, Bool.or_false, if_neg (by simpa using hlt)] at hstatus
      split at hstatus <;> cases hstatus
    · exact hget

theorem lt_size_of_pending {p : Progress} {parameter : Parameter}
    (h : m.pending p = some parameter) : p.selections.length < m.size :=
  (List.getElem?_eq_some_iff.mp (pending_eq_some_iff.mp h).2).1

/-- A selection is complete exactly when nothing is pending. -/
theorem status_eq_complete_iff {p : Progress} : m.status p = .complete ↔ m.pending p = none := by
  unfold pending
  constructor
  · intro h
    rw [h]
  · intro h
    split at h
    · assumption
    · rw [List.getElem?_eq_none_iff] at h
      rw [status, if_pos (by simp [size, h])]

theorem status_ne_complete_iff {p : Progress} :
    m.status p ≠ .complete ↔ ∃ parameter, m.pending p = some parameter := by
  rw [ne_eq, status_eq_complete_iff, ← ne_eq, Option.ne_none_iff_exists']

theorem status_ne_complete {p : Progress} {parameter : Parameter}
    (hp : m.pending p = some parameter) : m.status p ≠ .complete :=
  status_ne_complete_iff.mpr ⟨parameter, hp⟩

theorem rollRequest_eq_none_iff {p : Progress} {format : AnswerFormat} :
    m.rollRequest p format = none ↔ ∃ parameter, m.pending p = some parameter := by
  rw [← status_ne_complete_iff]
  unfold rollRequest
  split
  · rename_i h
    simp [h]
  · rename_i h
    exact ⟨fun _ => h, fun _ => rfl⟩

/-! ## Replaying one value more -/

/-- Whether the last of some values is a direct choice, or `ended` if there is none. -/
def endedAfter (ended : Bool) : List Parameter → List String → Bool
  | _, [] => ended
  | [], _ :: _ => false
  | parameter :: parameters, value :: values =>
    endedAfter ((parameter.choiceByValue value).any Choice.direct) parameters values

theorem endedAfter_concat (ended : Bool) (ps : List Parameter) (vs : List String) (v : String) :
    endedAfter ended ps (vs ++ [v]) =
      (ps[vs.length]?.bind fun parameter => parameter.choiceByValue v).any Choice.direct := by
  induction vs generalizing ended ps with
  | nil => cases ps <;> simp [endedAfter]
  | cons u us ih =>
    cases ps with
    | nil => rfl
    | cons p ps =>
      rw [List.cons_append, endedAfter, ih]
      simp

/-- The replay and the status read the end of a selection alike. -/
theorem endedDirectly_eq (p : Progress) :
    m.endedDirectly p = endedAfter false m.parameters p.selections := by
  rcases List.eq_nil_or_concat' p.selections with h | ⟨vs, v, h⟩
  · simp [endedDirectly, h, endedAfter]
  · rw [h, endedAfter_concat, endedDirectly, h, List.getLast?_concat, List.length_append,
      List.length_singleton, Nat.add_sub_cancel]
    cases m.parameters[vs.length]? <;> rfl

/-- A value that only one choice has ends the selection exactly if that choice is a direct one. -/
theorem endedDirectly_append {p : Progress} {vs : List String} {parameter : Parameter} {c : Choice}
    (hget : m.parameters[vs.length]? = some parameter)
    (hnodup : (parameter.choices.map Choice.value).Nodup) (hc : c ∈ parameter.choices)
    (hp : p.selections = vs ++ [c.value]) : m.endedDirectly p = c.direct := by
  have hvalue : parameter.choiceByValue c.value = some c :=
    Parameter.choiceByValue_of_nodup hnodup hc
  rw [endedDirectly_eq, hp, endedAfter_concat, hget, Option.bind_some, hvalue]
  rfl

/-- The first value has to be offered, and nothing may have ended the selection before. -/
theorem replay_cons_iff {ended : Bool} {p : Parameter} {ps : List Parameter} {v : String}
    {vs : List String} :
    replay ended (p :: ps) (v :: vs) = .ok () ↔
      ended = false ∧ ∃ c, p.choiceByValue v = some c ∧ replay c.direct ps vs = .ok () := by
  rw [replay]
  cases hc : p.choiceByValue v with
  | none => simp
  | some c => cases ended <;> simp [Option.filter]

theorem replay_concat_iff {ended : Bool} {ps : List Parameter} {vs : List String} {v : String} :
    replay ended ps (vs ++ [v]) = .ok () ↔
      replay ended ps vs = .ok () ∧ endedAfter ended ps vs = false ∧
        ∃ parameter c, ps[vs.length]? = some parameter ∧ parameter.choiceByValue v = some c := by
  induction vs generalizing ended ps with
  | nil =>
    cases ps with
    | nil => simp [replay]
    | cons p ps =>
      rw [List.nil_append, replay_cons_iff]
      simp [replay, endedAfter]
  | cons u us ih =>
    cases ps with
    | nil => simp [replay]
    | cons p ps =>
      rw [List.cons_append, replay_cons_iff, replay_cons_iff, endedAfter]
      cases hc : p.choiceByValue u with
      | none => simp
      | some c => simp [ih, and_assoc]

/-- **A value may follow a replayed selection exactly if the pending parameter offers it.** -/
theorem checkSelections_concat_iff {vs : List String} {v : String} :
    m.checkSelections (vs ++ [v]) = .ok () ↔
      m.checkSelections vs = .ok () ∧
        ∃ parameter c, m.pending { selections := vs } = some parameter ∧
          parameter.choiceByValue v = some c := by
  rw [checkSelections, replay_concat_iff, ← checkSelections]
  simp only [pending_eq_some_iff, endedDirectly_eq]
  constructor
  · rintro ⟨hcheck, hended, parameter, c, hget, hc⟩
    exact ⟨hcheck, parameter, c, ⟨hended, hget⟩, hc⟩
  · rintro ⟨hcheck, parameter, c, ⟨hended, hget⟩, hc⟩
    exact ⟨hcheck, hended, parameter, c, hget, hc⟩

theorem checkSelections_nil : m.checkSelections [] = .ok () := by
  rw [checkSelections, replay]

/-- Behind the values of a replayed selection there are choices, one of each parameter. -/
theorem exists_choices_of_replay {ended : Bool} {ps : List Parameter} {vs : List String}
    (h : replay ended ps vs = .ok ()) :
    ∃ choices : List Choice, choices.map Choice.value = vs ∧
      List.Forall₂ (fun c parameter => c ∈ parameter.choices) choices (ps.take vs.length) := by
  induction vs generalizing ended ps with
  | nil => exact ⟨[], rfl, by simp⟩
  | cons v vs ih =>
    cases ps with
    | nil => simp [replay] at h
    | cons p ps =>
      obtain ⟨-, c, hc, hrest⟩ := replay_cons_iff.mp h
      obtain ⟨hmem, hvalue⟩ := Parameter.mem_of_choiceByValue hc
      obtain ⟨choices, hvalues, hall⟩ := ih hrest
      exact ⟨c :: choices, by rw [List.map_cons, hvalue, hvalues], .cons hmem hall⟩

/-! ## What a click comes to -/

theorem lockedOut_eq_none_iff {p : Progress} {user : String} :
    lockedOut p user = none ↔ p.lock = none ∨ p.lock = some user := by
  unfold lockedOut
  cases p.lock with
  | none => simp
  | some owner => by_cases h : owner = user <;> simp [h]

end Menu

/-- The outcomes of a click that does something. -/
inductive Outcome.Taken : Outcome → Prop where
  | continued (p : Progress) : Taken (.continued p)
  | completed (p : Progress) (roll : RollRequest) : Taken (.completed p roll)
  | cleared (p : Progress) : Taken (.cleared p)

/-- The selection after a user's click on one more choice. -/
def Progress.choose (p : Progress) (c : Choice) (user : String) : Progress :=
  { selections := p.selections ++ [c.value], lock := some user }

namespace Menu

variable {m : Menu} {p : Progress} {clicked user : String} {format : AnswerFormat}

theorem advance_eq_ok_iff {next : Progress} :
    m.advance p clicked = .ok next ↔
      ∃ parameter c, m.pending p = some parameter ∧ parameter.choice clicked = some c ∧
        next = { p with selections := p.selections ++ [c.value] } := by
  unfold advance
  cases hp : m.pending p with
  | none => simp
  | some parameter =>
    cases hc : parameter.choice clicked with
    | none => simp [hc]
    | some c => simp [hc, eq_comm]

/-- Whatever somebody else clicks is ignored. -/
theorem click_of_lock {owner : String} (hlock : p.lock = some owner) (hne : owner ≠ user) :
    m.click p clicked user format = .ignored p (.lockedBy owner user) := by
  have hout : lockedOut p user = some (.lockedBy owner user) := by
    rw [lockedOut, hlock]
    exact if_neg hne
  rw [click, hout]

/-- A click that the menu takes: the selection grows by the choice and is locked for the user. -/
theorem click_of_choice {parameter : Parameter} {c : Choice} (hfree : lockedOut p user = none)
    (hclear : clicked ≠ clearClick) (hcheck : m.checkSelections p.selections = .ok ())
    (hp : m.pending p = some parameter) (hc : parameter.choice clicked = some c) :
    m.click p clicked user format =
      match m.rollRequest (p.choose c user) format with
      | some roll => .completed (p.choose c user) roll
      | none => .continued (p.choose c user) := by
  have hlock : p.lock.getD user = user := by
    rcases lockedOut_eq_none_iff.mp hfree with h | h <;> simp [h]
  have hadvance := advance_eq_ok_iff.mpr ⟨parameter, c, hp, hc, rfl⟩
  simp only [click, hfree, if_neg hclear, hcheck, hadvance, hlock]
  rfl

/-- Everything that a click can come to. -/
inductive ClickCase (m : Menu) (p : Progress) (clicked user : String) (format : AnswerFormat) :
    Outcome → Prop where
  /-- Somebody else holds the selection. -/
  | locked {owner : String} (hlock : p.lock = some owner) (hne : owner ≠ user) :
      ClickCase m p clicked user format (.ignored p (.lockedBy owner user))
  | cleared (hfree : lockedOut p user = none) (hclear : clicked = clearClick) :
      ClickCase m p clicked user format (.cleared {})
  /-- The selection does not replay. -/
  | forged {why : Refusal} (hfree : lockedOut p user = none) (hclear : clicked ≠ clearClick)
      (hcheck : m.checkSelections p.selections = .error why) :
      ClickCase m p clicked user format (.ignored p why)
  /-- What was clicked is not offered. -/
  | refused {why : Refusal} (hfree : lockedOut p user = none) (hclear : clicked ≠ clearClick)
      (hcheck : m.checkSelections p.selections = .ok ())
      (hadvance : m.advance p clicked = .error why) :
      ClickCase m p clicked user format (.ignored p why)
  | continued {parameter next : Parameter} {c : Choice} (hfree : lockedOut p user = none)
      (hclear : clicked ≠ clearClick) (hcheck : m.checkSelections p.selections = .ok ())
      (hp : m.pending p = some parameter) (hc : parameter.choice clicked = some c)
      (hnext : m.pending (p.choose c user) = some next) :
      ClickCase m p clicked user format (.continued (p.choose c user))
  | completed {parameter : Parameter} {c : Choice} {roll : RollRequest}
      (hfree : lockedOut p user = none) (hclear : clicked ≠ clearClick)
      (hcheck : m.checkSelections p.selections = .ok ()) (hp : m.pending p = some parameter)
      (hc : parameter.choice clicked = some c)
      (hroll : m.rollRequest (p.choose c user) format = some roll) :
      ClickCase m p clicked user format (.completed (p.choose c user) roll)

/-- **What a click comes to, with everything that was checked on the way.** -/
theorem click_cases (m : Menu) (p : Progress) (clicked user : String) (format : AnswerFormat) :
    ClickCase m p clicked user format (m.click p clicked user format) := by
  cases hfree : lockedOut p user with
  | some refusal =>
    have hclick : m.click p clicked user format = .ignored p refusal := by simp only [click, hfree]
    rw [hclick]
    unfold lockedOut at hfree
    split at hfree
    · cases hfree
    · split at hfree
      · cases hfree
      · obtain rfl := Option.some.inj hfree
        exact .locked ‹_› ‹_›
  | none =>
    by_cases hclear : clicked = clearClick
    · simp only [click, hfree, if_pos hclear]
      exact .cleared hfree hclear
    · cases hcheck : m.checkSelections p.selections with
      | error why =>
        simp only [click, hfree, if_neg hclear, hcheck]
        exact .forged hfree hclear hcheck
      | ok =>
        cases hadvance : m.advance p clicked with
        | error why =>
          simp only [click, hfree, if_neg hclear, hcheck, hadvance]
          exact .refused hfree hclear hcheck hadvance
        | ok next =>
          obtain ⟨parameter, c, hp, hc, -⟩ := advance_eq_ok_iff.mp hadvance
          rw [click_of_choice hfree hclear hcheck hp hc]
          cases hroll : m.rollRequest (p.choose c user) format with
          | some roll => exact .completed hfree hclear hcheck hp hc hroll
          | none =>
            obtain ⟨next, hnext⟩ := rollRequest_eq_none_iff.mp hroll
            exact .continued hfree hclear hcheck hp hc hnext

/-- A click is taken, or it is ignored and changes nothing. -/
theorem taken_or_ignored (m : Menu) (p : Progress) (clicked user : String)
    (format : AnswerFormat) :
    (m.click p clicked user format).Taken ∨
      ∃ why, m.click p clicked user format = .ignored p why := by
  have hcase := m.click_cases p clicked user format
  generalize m.click p clicked user format = outcome at hcase
  cases hcase with
  | locked | forged | refused => exact Or.inr ⟨_, rfl⟩
  | cleared => exact Or.inl (.cleared _)
  | continued => exact Or.inl (.continued _)
  | completed => exact Or.inl (.completed _ _)

/-- A choice that was clicked keeps the selection replayable. -/
theorem checkSelections_choose {parameter : Parameter} {c : Choice}
    (hcheck : m.checkSelections p.selections = .ok ()) (hp : m.pending p = some parameter)
    (hc : c ∈ parameter.choices) :
    m.checkSelections (p.choose c user).selections = .ok () := by
  obtain ⟨d, hd⟩ := Parameter.exists_choiceByValue hc
  exact checkSelections_concat_iff.mpr ⟨hcheck, parameter, d, hp, hd⟩

end Menu

end RollMenu
