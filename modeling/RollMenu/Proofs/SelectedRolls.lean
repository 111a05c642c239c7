import RollMenu.Proofs.HonestRun
import RollMenu.Proofs.TemplateText

/-!
# What a selection rolls

One user clicks choices in order, each offered by its placeholder, up to a direct one or to
the last placeholder. Every click before that goes on. The last one rolls the template with
the chosen values in it and a pair of apostrophes in every placeholder that was skipped.

Progress keeps values only, and both the end of a selection and its label are found by
looking choices up by their values. That finds the choices that were clicked as long as no
placeholder offers a value twice. Ids are looked up before values, so it does no harm when a
value is the id of another choice.
-/

namespace RollMenu

/-- What a user has selected with these choices. -/
def Progress.selected (user : String) (choices : List Choice) : Progress :=
  choices.foldl (fun p c => p.choose c user) {}

namespace Progress

variable {user : String} {cs : List Choice} {c : Choice}

theorem selected_concat : selected user (cs ++ [c]) = (selected user cs).choose c user :=
  List.foldl_concat ..

theorem selections_selected (user : String) (cs : List Choice) :
    (selected user cs).selections = cs.map Choice.value := by
  induction cs using List.reverseRecOn with
  | nil => rfl
  | append_singleton cs c ih =>
    rw [selected_concat, choose, ih, List.map_append, List.map_singleton]

/-- From the first choice on, the selection is locked for the user. -/
theorem selected_eq (h : cs ≠ []) :
    selected user cs = { selections := cs.map Choice.value, lock := some user } := by
  obtain ⟨before, c, rfl⟩ := (List.eq_nil_or_concat' cs).resolve_left h
  rw [selected_concat, choose, selections_selected, List.map_append, List.map_singleton]

theorem lockedOut_selected : Menu.lockedOut (selected user cs) user = none := by
  rcases eq_or_ne cs [] with rfl | h
  · rfl
  · rw [selected_eq h]
    exact Menu.lockedOut_eq_none_iff.mpr (Or.inr rfl)

end Progress

namespace Menu

variable {m : Menu} {cs : List Choice} {c : Choice} {p : Progress} {user : String}
  {format : AnswerFormat}

theorem offered_concat_iff :
    m.Offered (cs ++ [c]) ↔
      m.Offered cs ∧ ∃ parameter, m.parameters[cs.length]? = some parameter ∧
        c ∈ parameter.choices := by
  rw [Offered, List.length_append, List.length_singleton, forall₂_take_concat_iff, Offered]

theorem Offered.lt_size (h : m.Offered (cs ++ [c])) : cs.length < m.size := by
  obtain ⟨-, parameter, hget, -⟩ := offered_concat_iff.mp h
  exact (List.getElem?_eq_some_iff.mp hget).1

/-! ## What is found by its value -/

/-- The entries of a label name each choice by its placeholder. -/
theorem label_entries_of_offered {cs : List Choice} {parameters : List Parameter}
    (hdistinct : ∀ parameter ∈ parameters, (parameter.choices.map Choice.value).Nodup)
    (hoffered : List.Forall₂ (fun c parameter => c ∈ parameter.choices) cs
      (parameters.take cs.length)) :
    ((cs.map Choice.value).zip parameters).map (fun (value, parameter) =>
        parameter.placeholder.name ++ ": "
          ++ ((parameter.choiceByValue value).map Choice.label).getD value) =
      List.zipWith (fun placeholder c => placeholder.name ++ ": " ++ c.label)
        (parameters.map Parameter.placeholder) cs := by
  induction cs generalizing parameters with
  | nil => simp
  | cons c cs ih =>
    cases parameters with
    | nil => cases hoffered
    | cons parameter parameters =>
      obtain ⟨hc, hrest⟩ := List.forall₂_cons.mp hoffered
      obtain ⟨hfirst, hothers⟩ := List.forall_mem_cons.mp hdistinct
      have hfound := Parameter.choiceByValue_of_nodup hfirst hc
      rw [List.map_cons, List.zip_cons_cons, List.map_cons, ih hothers hrest, List.map_cons,
        List.zipWith_cons_cons]
      simp only [hfound]
      rfl

section Distinct

variable (hdistinct : ∀ parameter ∈ m.parameters, (parameter.choices.map Choice.value).Nodup)
include hdistinct

/-- Whether a selection has ended is what its last choice says. -/
theorem endedDirectly_of_offered (hoffered : m.Offered (cs ++ [c]))
    (hp : p.selections = (cs ++ [c]).map Choice.value) : m.endedDirectly p = c.direct := by
  obtain ⟨-, parameter, hget, hc⟩ := offered_concat_iff.mp hoffered
  rw [← List.length_map (f := Choice.value)] at hget
  rw [List.map_append, List.map_singleton] at hp
  exact endedDirectly_append hget (hdistinct _ (List.mem_of_getElem? hget)) hc hp

/-- Choices that end nothing replay. -/
theorem checkSelections_of_offered (hoffered : m.Offered cs)
    (hordinary : ∀ d ∈ cs, d.direct = false) (hp : p.selections = cs.map Choice.value) :
    m.checkSelections p.selections = .ok () ∧ m.endedDirectly p = false := by
  induction cs using List.reverseRecOn generalizing p with
  | nil =>
    rw [List.map_nil] at hp
    rw [endedDirectly_eq, hp, endedAfter]
    exact ⟨checkSelections_nil, rfl⟩
  | append_singleton cs c ih =>
    obtain ⟨hbefore, parameter, hget, hc⟩ := offered_concat_iff.mp hoffered
    obtain ⟨hordinary', hdirect⟩ := List.forall_mem_append.mp hordinary
    constructor
    · obtain ⟨hcheck, hended⟩ :=
        ih hbefore hordinary' (p := { selections := cs.map Choice.value }) rfl
      have hpending := pending_eq_some_iff.mpr ⟨hended, by rwa [List.length_map]⟩
      obtain ⟨d, hd⟩ := Parameter.exists_choiceByValue hc
      rw [hp, List.map_append, List.map_singleton]
      exact checkSelections_concat_iff.mpr ⟨hcheck, parameter, d, hpending, hd⟩
    · rw [endedDirectly_of_offered hdistinct hoffered hp]
      exact hdirect c (List.mem_singleton_self c)

/-- A click on the next choice. -/
theorem click_of_offered (hm : m.Numbered) (hoffered : m.Offered (cs ++ [c]))
    (hordinary : ∀ d ∈ cs, d.direct = false) (user : String) (format : AnswerFormat) :
    m.click (.selected user cs) c.id user format =
      match m.rollRequest (.selected user (cs ++ [c])) format with
      | some roll => .completed (.selected user (cs ++ [c])) roll
      | none => .continued (.selected user (cs ++ [c])) := by
  obtain ⟨hbefore, parameter, hget, hc⟩ := offered_concat_iff.mp hoffered
  have hselections := Progress.selections_selected user cs
  obtain ⟨hcheck, hended⟩ := checkSelections_of_offered hdistinct hbefore hordinary hselections
  have hpending := pending_eq_some_iff.mpr ⟨hended, by rwa [hselections, List.length_map]⟩
  rw [Progress.selected_concat]
  exact click_id format hm Progress.lockedOut_selected hcheck hpending hc

/-- **Choices that end nothing are taken one after another.** By induction from the right: each
click goes on because its choice is not direct and there is a placeholder left. -/
theorem outcomes_of_ordinary (hm : m.Numbered) (hoffered : m.Offered cs)
    (hordinary : ∀ d ∈ cs, d.direct = false) (hlt : cs.length < m.size) (user : String)
    (format : AnswerFormat) :
    m.outcomes user format {} (cs.map Choice.id) =
        (List.range cs.length).map (fun i => .continued (.selected user (cs.take (i + 1)))) ∧
      m.arrival user format {} (cs.map Choice.id) = .selected user cs := by
  induction cs using List.reverseRecOn with
  | nil => exact ⟨rfl, rfl⟩
  | append_singleton cs c ih =>
    rw [List.length_append, List.length_singleton] at hlt
    obtain ⟨hrun, harrival⟩ := ih (offered_concat_iff.mp hoffered).1
      (List.forall_mem_append.mp hordinary).1 (Nat.lt_of_succ_lt hlt)
    -- the choice is not direct and fills no last placeholder, so there is no roll yet
    have hopen : m.rollRequest (.selected user (cs ++ [c])) format = none := by
      have hselections := Progress.selections_selected user (cs ++ [c])
      obtain ⟨-, hended⟩ := checkSelections_of_offered hdistinct hoffered hordinary hselections
      refine rollRequest_eq_none_iff.mpr ⟨m.parameters[cs.length + 1],
        pending_eq_some_iff.mpr ⟨hended, ?_⟩⟩
      rw [hselections, List.length_map, List.length_append, List.length_singleton]
      exact List.getElem?_eq_getElem hlt
    have hclick := click_of_offered hdistinct hm hoffered
      (List.forall_mem_append.mp hordinary).1 user format
    rw [hopen] at hclick
    have hlast : m.arrival user format {} ((cs ++ [c]).map Choice.id) =
        (m.click (.selected user cs) c.id user format).progress := by
      rw [← harrival, List.map_append]
      exact List.foldl_concat ..
    constructor
    · rw [List.map_append, outcomes_append, hrun, harrival, List.map_singleton, outcomes, hclick,
        List.length_append, List.length_singleton, List.range_succ, List.map_append]
      congr 1
      · -- the clicks before were shown with fewer choices, which are the same now
        refine List.map_congr_left fun i hi => ?_
        rw [List.take_append_of_le_length (List.mem_range.mp hi)]
      · rw [List.map_singleton, ← List.length_singleton (a := c), ← List.length_append,
          List.take_length]
        rfl
    · rw [hlast, hclick]
      rfl

/-! ## The roll -/

/-- A selection is complete after a direct choice, and when no placeholder is left. -/
theorem status_of_offered (hoffered : m.Offered (cs ++ [c]))
    (hlast : c.direct = true ∨ cs.length + 1 = m.size) (user : String) :
    m.status (.selected user (cs ++ [c])) = .complete := by
  have hselections := Progress.selections_selected user (cs ++ [c])
  rcases hlast with hdirect | hfull
  · refine complete_of_endedDirectly ?_
    rw [endedDirectly_of_offered hdistinct hoffered hselections, hdirect]
  · refine status_eq_complete_iff.mpr (Option.eq_none_iff_forall_ne_some.mpr fun parameter hp => ?_)
    have hlt := lt_size_of_pending hp
    rw [hselections, List.length_map, List.length_append, List.length_singleton, hfull] at hlt
    exact Nat.lt_irrefl _ hlt

/-- Without a label in the template, an answer that does not show the expression is labelled with
the choices. -/
theorem answerLabel_of_offered (hm : m.Aligned) (hoffered : m.Offered (cs ++ [c]))
    (hp : p.selections = (cs ++ [c]).map Choice.value) (hlabel : m.template.label = none)
    (hformat : format ≠ .full) :
    m.answerLabel p format =
      some (", ".intercalate (List.zipWith
        (fun placeholder c => placeholder.name ++ ": " ++ c.label)
        m.template.placeholders (cs ++ [c]))) := by
  have hentries := label_entries_of_offered hdistinct hoffered
  -- at least one choice was made, so the label is not missing
  have hsome : 0 < (cs ++ [c]).length ∧ 0 < m.template.placeholders.length := by
    rw [← hm.placeholders, List.length_map]
    exact ⟨List.length_pos_iff.mpr (List.concat_ne_nil _ _), Nat.zero_lt_of_lt hoffered.lt_size⟩
  rw [hm.placeholders] at hentries
  simp only [answerLabel, hlabel, if_neg hformat, hp, hentries]
  rw [if_neg]
  rw [List.isEmpty_iff_length_eq_zero, List.length_zipWith]
  omega

/-- **The roll that completes a selection**, whoever has made it. -/
theorem exists_roll_of_offered (hm : m.Aligned) (hoffered : m.Offered (cs ++ [c]))
    (hlast : c.direct = true ∨ cs.length + 1 = m.size) (user : String) (format : AnswerFormat) :
    ∃ roll : RollRequest,
      m.rollRequest (.selected user (cs ++ [c])) format = some roll ∧
      roll.expression.toList =
        Template.filledSlots m.template.slots ((cs ++ [c]).map Choice.value ++
          List.replicate (m.size - (cs.length + 1)) "''") ++ m.template.body.toList ∧
      roll.label =
        match m.template.label with
        | some label => some label
        | none =>
          if format = .full then none
          else some (", ".intercalate (List.zipWith
            (fun placeholder c => placeholder.name ++ ": " ++ c.label)
            m.template.placeholders (cs ++ [c]))) := by
  have hselections := Progress.selections_selected user (cs ++ [c])
  have hlength : ((cs ++ [c]).map Choice.value).length = cs.length + 1 := by
    rw [List.length_map, List.length_append, List.length_singleton]
  have hle : cs.length + 1 ≤ m.size := hoffered.lt_size
  have hfilling : m.filling (.selected user (cs ++ [c])) = (cs ++ [c]).map Choice.value ++
      List.replicate (m.size - (cs.length + 1)) skippedValue := by
    have heq := filling_eq (m := m) (hlength.trans_le hle)
    rw [hlength] at heq
    rw [Progress.selected_eq (List.concat_ne_nil _ _)]
    exact heq
  refine ⟨{ expression := m.template.substitute (m.filling (.selected user (cs ++ [c]))),
            label := m.answerLabel (.selected user (cs ++ [c])) format }, ?_, ?_, ?_⟩
  · rw [rollRequest, status_of_offered hdistinct hoffered hlast user]
  · rw [hfilling]
    refine Template.toList_substitute hm.numbered ?_
    rw [← hm.size_eq, List.length_append, List.length_replicate, hlength, Nat.add_sub_cancel' hle]
  · dsimp only
    cases hlabel : m.template.label with
    | some label => simp only [answerLabel, hlabel]
    | none =>
      by_cases hformat : format = .full
      · simp only [answerLabel, hlabel, if_pos hformat]
      · rw [if_neg hformat]
        exact answerLabel_of_offered hdistinct hm hoffered hselections hlabel hformat

end Distinct

/-- What is offered has no brace. -/
theorem plain_of_offered {limits : Limits} {source : String} (hm : m.CompiledFrom source limits)
    (hoffered : m.Offered cs) {v : String} (hv : v ∈ cs.map Choice.value) :
    Template.Plain v.toList := by
  obtain ⟨c, hc, rfl⟩ := List.mem_map.mp hv
  obtain ⟨parameter, hparameter, hmem⟩ := exists_of_forall₂_of_mem hoffered.flip hc
  exact Template.plain_of_writtenIn
    ((hm.parameter parameter (List.mem_of_mem_take hparameter)).value c hmem)

/--
**A selection rolls what was selected.** If no placeholder offers a value twice, then clicking
choices in order goes on up to the first direct one, or to the last placeholder, and then
completes. The roll has the text of the template without the label, with the chosen values in
place of their placeholders and two apostrophes in place of the others, and no brace is left in
it. Its label is the template's. Without one it tells the choices, unless the answer shows the
whole expression.
-/
theorem outcomes_of_offered {limits : Limits} {source : String} (hm : compile limits source = .ok m)
    (hdistinct : ∀ parameter ∈ m.parameters, (parameter.choices.map Choice.value).Nodup)
    (hoffered : m.Offered (cs ++ [c])) (hordinary : ∀ d ∈ cs, d.direct = false)
    (hlast : c.direct = true ∨ cs.length + 1 = m.size) (user : String) (format : AnswerFormat) :
    m.template.CutFrom source ∧
    m.parameters.map Parameter.placeholder = m.template.placeholders ∧
    ∃ roll : RollRequest,
      m.outcomes user format {} ((cs ++ [c]).map Choice.id) =
        (List.range cs.length).map (fun i =>
          .continued { selections := (cs.take (i + 1)).map Choice.value, lock := some user }) ++
        [.completed { selections := (cs ++ [c]).map Choice.value, lock := some user } roll] ∧
      roll.expression.toList =
        Template.filledSlots m.template.slots ((cs ++ [c]).map Choice.value ++
          List.replicate (m.size - (cs.length + 1)) "''") ++ m.template.body.toList ∧
      Template.Plain roll.expression.toList ∧
      roll.label =
        match m.template.label with
        | some label => some label
        | none =>
          if format = .full then none
          else some (", ".intercalate (List.zipWith
            (fun placeholder c => placeholder.name ++ ": " ++ c.label)
            m.template.placeholders (cs ++ [c]))) := by
  have haligned := aligned_of_compile hm
  have hcompiled := compiledFrom_of_compile hm
  have hcut := Template.cutFrom_of_parse (compile_ok hm).1
  obtain ⟨roll, hroll, hexpression, hlabel⟩ :=
    exists_roll_of_offered hdistinct haligned hoffered hlast user format
  refine ⟨hcut, haligned.placeholders, roll, ?_, hexpression, ?_, hlabel⟩
  · -- all clicks but the last go on
    obtain ⟨hrun, harrival⟩ := outcomes_of_ordinary hdistinct hcompiled.numbered
      (offered_concat_iff.mp hoffered).1 hordinary hoffered.lt_size user format
    have hclick := click_of_offered hdistinct hcompiled.numbered hoffered hordinary user format
    rw [hroll, Progress.selected_eq (List.concat_ne_nil _ _)] at hclick
    rw [List.map_append, outcomes_append, hrun, harrival, List.map_singleton, outcomes, hclick]
    congr 1
    refine List.map_congr_left fun i hi => ?_
    have hpos : 0 < (cs.take (i + 1)).length := by
      rw [List.length_take]
      exact Nat.lt_min.mpr ⟨Nat.succ_pos i, Nat.zero_lt_of_lt (List.mem_range.mp hi)⟩
    rw [Progress.selected_eq (List.length_pos_iff.mp hpos)]
  · rw [hexpression]
    refine hcut.plain fun v hv => ?_
    rcases List.mem_append.mp hv with hv | hv
    · exact plain_of_offered hcompiled hoffered hv
    · obtain rfl := List.eq_of_mem_replicate hv
      simp [Template.Plain, Template.isPlain]

/-- The value of the first choice is the id of another one, and the second choice is direct with a
placeholder left. -/
theorem outcomes_of_offered_direct_middle :
    ∃ m, compile {} "{Count:2/id1}d{Sides:6/20@!Twenty}+{Bonus:1/2} @" = .ok m ∧
      ∃ roll : RollRequest,
        m.outcomes "alice" .withoutExpression {} ["id2", "id2"] =
          [.continued { selections := ["id1"], lock := some "alice" },
            .completed { selections := ["id1", "20"], lock := some "alice" } roll] ∧
        roll.expression = "id1d20+'' @" ∧ roll.label = some "Count: id1, Sides: Twenty" := by
  let first : Choice := ⟨"id1", "id1", "id2", false, some 1⟩
  let last : Choice := ⟨"20", "Twenty", "id2", true, none⟩
  obtain ⟨m, hm, hparts⟩ := exists_of_map_ok (by cbv :
    (compile {} "{Count:2/id1}d{Sides:6/20@!Twenty}+{Bonus:1/2} @").map (fun m =>
      (m.parameters.map Parameter.choices, m.size, m.template.label,
        String.ofList (Template.filledSlots m.template.slots ["id1", "20", "''"]
          ++ m.template.body.toList),
        ", ".intercalate (List.zipWith (fun placeholder c => placeholder.name ++ ": " ++ c.label)
          m.template.placeholders [first, last]))) =
      .ok ([[⟨"2", "2", "id1", false, some 1⟩, first],
          [⟨"6", "6", "id1", false, some 2⟩, last],
          [⟨"1", "1", "id1", false, none⟩, ⟨"2", "2", "id2", false, none⟩]],
        3, none, "id1d20+'' @", "Count: id1, Sides: Twenty"))
  obtain ⟨hchoices, hsize, hlabel, htext, hentries⟩ := by
    simpa only [Prod.mk.injEq] using hparts
  have hdistinct : ∀ parameter ∈ m.parameters, (parameter.choices.map Choice.value).Nodup := by
    intro parameter hp
    have hmem := List.mem_map_of_mem (f := Parameter.choices) hp
    rw [hchoices] at hmem
    revert hmem
    generalize parameter.choices = choices
    simp only [List.mem_cons]
    rintro (rfl | rfl | rfl | h)
    · decide
    · decide
    · decide
    · cases h
  have hoffered : m.Offered ([first] ++ [last]) := by
    have hmap : List.Forall₂ (fun c choices => c ∈ choices) ([first] ++ [last])
        ((m.parameters.take 2).map Parameter.choices) := by
      rw [List.map_take, hchoices]
      exact .cons (by decide) (.cons (by decide) .nil)
    exact List.forall₂_map_right_iff.mp hmap
  obtain ⟨-, -, roll, hrun, hexpression, -, hroll⟩ :=
    outcomes_of_offered hm hdistinct hoffered (by decide) (Or.inl rfl) "alice" .withoutExpression
  refine ⟨m, hm, roll, hrun, ?_, ?_⟩
  · rw [hsize] at hexpression
    rw [← htext, ← String.ofList_toList (s := roll.expression), hexpression]
    rfl
  · rw [hlabel] at hroll
    rw [hroll, ← hentries]
    rfl

end Menu

end RollMenu
