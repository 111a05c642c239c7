import RollMenu.Proofs.Handling
import RollMenu.Proofs.Reachable

/-!
# What forged buttons can roll

A button id is text that a client sends, so anybody can write one: with values that were
never offered, with more of them than there are placeholders, in the layout of old
messages, on a message that somebody else is selecting on. Nothing but the menu stands
between such an id and the roll engine.

The main statement is that a forger gains nothing. Whatever is answered, some choices,
one from each placeholder in turn, would have been answered with the same roll had one
user clicked their buttons in order.
-/

namespace RollMenu

namespace Menu

variable {m : Menu} {user : String} {format : AnswerFormat}

/-- What some clicks of one user come to, each on the selection that the last one left. -/
def outcomes (m : Menu) (user : String) (format : AnswerFormat) :
    Progress → List String → List Outcome
  | _, [] => []
  | p, clicked :: rest =>
    let outcome := m.click p clicked user format
    outcome :: outcomes m user format outcome.progress rest

/-- Where some clicks of one user lead to. -/
def arrival (m : Menu) (user : String) (format : AnswerFormat) (p : Progress)
    (clicks : List String) : Progress :=
  clicks.foldl (fun p clicked => (m.click p clicked user format).progress) p

/-- One choice of each of the first parameters, in order. -/
def Offered (m : Menu) (choices : List Choice) : Prop :=
  List.Forall₂ (fun c parameter => c ∈ parameter.choices) choices
    (m.parameters.take choices.length)

/-- Clicking these choices in order from the start goes on up to the last click, which completes
the selection with this roll. -/
def Rolls (m : Menu) (user : String) (format : AnswerFormat) (choices : List Choice)
    (roll : RollRequest) : Prop :=
  ∃ (shown : List Progress) (last : Progress),
    m.outcomes user format {} (choices.map Choice.id) =
      shown.map Outcome.continued ++ [.completed last roll]

/-- Clicking these choices in order from the start goes on with every click and leads here. -/
def Arrives (m : Menu) (user : String) (format : AnswerFormat) (choices : List Choice)
    (p : Progress) : Prop :=
  (∃ shown : List Progress,
    m.outcomes user format {} (choices.map Choice.id) = shown.map Outcome.continued) ∧
  m.arrival user format {} (choices.map Choice.id) = p

theorem outcomes_append (p : Progress) (xs ys : List String) :
    m.outcomes user format p (xs ++ ys) =
      m.outcomes user format p xs ++
        m.outcomes user format (m.arrival user format p xs) ys := by
  induction xs generalizing p with
  | nil => rfl
  | cons x xs ih =>
    rw [List.cons_append, outcomes, outcomes, ih]
    rfl

/-! ## Beginnings of a replayed selection -/

theorem checkSelections_of_append {us vs : List String}
    (h : m.checkSelections (us ++ vs) = .ok ()) : m.checkSelections us = .ok () := by
  induction vs using List.reverseRecOn with
  | nil => rwa [List.append_nil] at h
  | append_singleton vs v ih =>
    rw [← List.append_assoc] at h
    exact ih (checkSelections_concat_iff.mp h).1

/-- A selection that has one more value is not complete yet. -/
theorem pending_of_append {us vs : List String} {v : String}
    (h : m.checkSelections (us ++ v :: vs) = .ok ()) :
    ∃ parameter, m.pending { selections := us } = some parameter := by
  rw [← List.singleton_append, ← List.append_assoc] at h
  obtain ⟨-, parameter, -, hp, -⟩ := checkSelections_concat_iff.mp (checkSelections_of_append h)
  exact ⟨parameter, hp⟩

theorem drop_of_pending {p : Progress} {parameter : Parameter}
    (hp : m.pending p = some parameter) :
    m.parameters.drop p.selections.length =
      parameter :: m.parameters.drop (p.selections.length + 1) := by
  obtain ⟨hlt, rfl⟩ := List.getElem?_eq_some_iff.mp (pending_eq_some_iff.mp hp).2
  exact List.drop_eq_getElem_cons hlt

/-! ## Clicking them one after another -/

/-- **Clicking choices goes on as long as something is pending.** By induction on what is left: a
click goes on when there is another value to come or a parameter is pending at the end. -/
theorem arrival_of_pending (user : String) (format : AnswerFormat) (hm : m.Numbered)
    {p : Progress} {choices : List Choice} {parameter : Parameter} (hfree : lockedOut p user = none)
    (hcheck : m.checkSelections (p.selections ++ choices.map Choice.value) = .ok ())
    (hoffered : List.Forall₂ (fun c parameter => c ∈ parameter.choices) choices
      ((m.parameters.drop p.selections.length).take choices.length))
    (hpending : m.pending { selections := p.selections ++ choices.map Choice.value } =
      some parameter) :
    (∃ shown : List Progress,
      m.outcomes user format p (choices.map Choice.id) = shown.map Outcome.continued) ∧
    (m.arrival user format p (choices.map Choice.id)).selections =
      p.selections ++ choices.map Choice.value ∧
    lockedOut (m.arrival user format p (choices.map Choice.id)) user = none := by
  induction choices generalizing p with
  | nil => exact ⟨⟨[], rfl⟩, (List.append_nil _).symm, hfree⟩
  | cons c cs ih =>
    have hbefore := checkSelections_of_append hcheck
    obtain ⟨q, hp⟩ := pending_of_append hcheck
    rw [drop_of_pending hp, List.length_cons, List.take_succ_cons] at hoffered
    obtain ⟨hc, hrest⟩ := List.forall₂_cons.mp hoffered
    have hnext : (p.choose c user).selections = p.selections ++ [c.value] := rfl
    have happend : p.selections ++ (c :: cs).map Choice.value =
        (p.choose c user).selections ++ cs.map Choice.value := by
      rw [hnext, List.append_assoc]
      rfl
    rw [happend] at hcheck hpending ⊢
    have hopen : m.rollRequest (p.choose c user) format = none := by
      apply rollRequest_eq_none_iff.mpr
      cases cs with
      | nil =>
        rw [List.map_nil, List.append_nil] at hpending
        exact ⟨parameter, hpending⟩
      | cons d ds => exact pending_of_append hcheck
    have hclick := click_id format hm hfree hbefore hp hc
    rw [hopen] at hclick
    have hlength : (p.choose c user).selections.length = p.selections.length + 1 := by
      rw [hnext, List.length_append]
      rfl
    obtain ⟨⟨shown, hrun⟩, hselections, hlocked⟩ := ih (p := p.choose c user)
      (lockedOut_eq_none_iff.mpr (Or.inr rfl)) hcheck (by rw [hlength]; exact hrest) hpending
    have harrival : m.arrival user format p ((c :: cs).map Choice.id) =
        m.arrival user format (p.choose c user) (cs.map Choice.id) := by
      rw [List.map_cons, arrival, List.foldl_cons, hclick]
      rfl
    rw [harrival]
    refine ⟨⟨p.choose c user :: shown, ?_⟩, hselections, hlocked⟩
    rw [List.map_cons, outcomes, hclick, List.map_cons, ← hrun]
    rfl

/-- So it leads to every selection that replays and is incomplete. -/
theorem arrives_of_checkSelections (hm : m.Numbered) {vs : List String} {parameter : Parameter}
    (hcheck : m.checkSelections vs = .ok ())
    (hp : m.pending { selections := vs } = some parameter) (user : String)
    (format : AnswerFormat) :
    ∃ choices p, m.Offered choices ∧ m.Arrives user format choices p ∧ p.selections = vs := by
  obtain ⟨choices, rfl, hoffered⟩ := exists_choices_of_replay hcheck
  rw [List.length_map] at hoffered
  obtain ⟨hrun, hselections, -⟩ :=
    arrival_of_pending user format (p := {}) hm rfl hcheck hoffered hp
  exact ⟨choices, _, hoffered, ⟨hrun, rfl⟩, hselections⟩

/-- **Choices whose values replay and complete the selection roll when they are clicked.** -/
theorem rolls_of_checkSelections (hm : m.Numbered) {vs : List String} {roll : RollRequest}
    (hcheck : m.checkSelections vs = .ok ()) (hne : vs ≠ [])
    (hroll : m.rollRequest { selections := vs } format = some roll) (user : String) :
    ∃ choices, m.Offered choices ∧ m.Rolls user format choices roll := by
  obtain ⟨choices, rfl, hoffered⟩ := exists_choices_of_replay hcheck
  rw [List.length_map] at hoffered
  refine ⟨choices, hoffered, ?_⟩
  obtain ⟨cs, c, rfl⟩ := (List.eq_nil_or_concat' choices).resolve_left (by
    rintro rfl
    exact hne rfl)
  rw [List.map_append] at hcheck hroll
  obtain ⟨hbefore, parameter, -, hp, -⟩ := checkSelections_concat_iff.mp hcheck
  rw [List.length_append, List.length_singleton, forall₂_take_concat_iff] at hoffered
  obtain ⟨hcs, other, hother, hc⟩ := hoffered
  have hget := (pending_eq_some_iff.mp hp).2
  rw [List.length_map, hother] at hget
  obtain rfl := Option.some.inj hget
  -- all clicks but the last go on, and the last one completes the selection
  obtain ⟨⟨shown, hrun⟩, hselections, hfree⟩ :=
    arrival_of_pending user format (p := {}) hm rfl hbefore hcs hp
  rw [List.nil_append] at hselections
  refine ⟨shown, (m.arrival user format {} (cs.map Choice.id)).choose c user, ?_⟩
  rw [List.map_append, outcomes_append, hrun]
  generalize m.arrival user format {} (cs.map Choice.id) = p at hselections hfree
  rw [← hselections] at hbefore hp hroll
  have hclick := click_id format hm hfree hbefore hp hc
  have hlast : m.rollRequest (p.choose c user) format = some roll := hroll
  rw [hlast] at hclick
  rw [List.map_singleton, outcomes, hclick]
  rfl

/-- A click that completes rolls what choices clicked in order would have rolled. -/
theorem rolls_of_completed (hm : m.Numbered) {p q : Progress} {clicked clicker : String}
    {roll : RollRequest} (h : m.click p clicked clicker format = .completed q roll)
    (user : String) : ∃ choices, m.Offered choices ∧ m.Rolls user format choices roll := by
  have hcase := m.click_cases p clicked clicker format
  rw [h] at hcase
  cases hcase with
  | @completed parameter c _ hfree hclear hcheck hp hc hroll =>
    have hreplay : m.checkSelections (p.choose c clicker).selections = .ok () :=
      checkSelections_choose hcheck hp (Parameter.mem_of_choice hc)
    have hne : (p.choose c clicker).selections ≠ [] :=
      List.append_ne_nil_of_right_ne_nil _ (List.cons_ne_nil _ _)
    exact rolls_of_checkSelections hm hreplay hne hroll user

end Menu

/-! ## At the service -/

theorem Flow.ofConfig_ok {limits : Limits} {config : Config} {flow : Flow}
    (h : Flow.ofConfig limits config = .ok flow) :
    flow.config = config ∧ Menu.compile limits config.template = .ok flow.menu := by
  obtain ⟨menu, hmenu, h⟩ := exists_of_bind_ok h
  obtain rfl := Except.ok.inj h
  exact ⟨rfl, hmenu⟩

variable {σ ε : Type} [Store σ]

/--
**A forged button rolls nothing that an honest user could not.** Whatever the id says, the
configuration and the lock are what the store has, and if there is an answer, then any user
could have clicked one choice of each of the first placeholders in turn and have got the
same expression with the same label.
-/
theorem Service.answer_eq_honest {svc : Service ε} {id : ConfigId} {message : UInt64}
    {wire user : String} {w : World σ ε} {response : ClickResponse} {a : RollAnswer}
    (h : (svc.handleClick id message wire user w).1 = .ok response)
    (ha : response.answer = some a) :
    ∃ config flow, Store.loadConfig w.store id = .ok (some config) ∧
      Flow.ofConfig svc.limits config = .ok flow ∧
      ∀ honest, ∃ choices, flow.menu.Offered choices ∧
        flow.menu.Rolls honest config.answerFormat choices
          { expression := a.expression, label := a.label } := by
  have hcase := svc.handleClick_cases id message wire user w
  rcases hresult : svc.handleClick id message wire user w with ⟨result, w'⟩
  rw [hresult] at h hcase
  dsimp only at h
  subst h
  cases hcase with
  | @answered config parts flow _ hload hdecode hcommand hflow hanswer =>
    obtain ⟨rfl, hmenu⟩ := Flow.ofConfig_ok hflow
    refine ⟨flow.config, flow, hload, hflow, fun honest => ?_⟩
    cases hanswer with
    | continued | cleared | ignored => cases ha
    | rolled hclick _ _ =>
      obtain rfl := Option.some.inj ha
      exact Menu.rolls_of_completed (Menu.numbered_of_compile hmenu) hclick honest

/-- An id in the layout of old messages, with a value for its click, sent by the user who holds
the message's lock with another selection. -/
theorem Service.answer_eq_honest_old_layout :
    ∃ response a,
      ((Service.constant 7).handleClick .zero 5 "custom_parameter\x1e1\x1e4" "mallory"
        (World.showing { template := "1d20+{A:1/2@!Two}+{B:3/4@id1}" }
          (some { selections := ["2"], lock := some "mallory" }))).1 = .ok response ∧
      response.answer = some a ∧ a.expression = "1d20+1+4" ∧
      ∃ flow, Flow.ofConfig {} { template := "1d20+{A:1/2@!Two}+{B:3/4@id1}" } = .ok flow ∧
        ∃ choices, flow.menu.Offered choices ∧
          flow.menu.Rolls "alice" .withoutExpression choices
            { expression := "1d20+1+4", label := a.label } := by
  obtain ⟨response, hresponse, hanswer⟩ := exists_of_map_ok (by cbv :
    ((Service.constant 7).handleClick .zero 5 "custom_parameter\x1e1\x1e4" "mallory"
      (World.showing { template := "1d20+{A:1/2@!Two}+{B:3/4@id1}" }
        (some { selections := ["2"], lock := some "mallory" }))).1.map
          (fun response => response.answer.map RollAnswer.expression) = .ok (some "1d20+1+4"))
  obtain ⟨a, ha, hexpression⟩ := Option.map_eq_some_iff.mp hanswer
  obtain ⟨config, flow, hload, hflow, hrun⟩ := Service.answer_eq_honest hresponse ha
  obtain rfl := Option.some.inj (Except.ok.inj hload)
  obtain ⟨choices, hoffered, hrolls⟩ := hrun "alice"
  exact ⟨response, a, hresponse, ha, hexpression, flow, hflow, choices, hoffered,
    hexpression ▸ hrolls⟩

end RollMenu
