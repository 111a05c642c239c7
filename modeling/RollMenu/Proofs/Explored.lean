import RollMenu.Proofs.Shown

/-!
# What an accepted configuration has been checked for

The search starts with nothing selected and follows corner cases only. `Explored` is that
walk as a relation, without the verdicts. A search that accepts has accepted from every
explored selection on, by induction along the walk: each step passes the verdict on to the
branch that is taken. So an explored selection that is not complete has no defect, and one
that is complete has an expression that the engine takes.

Nothing is said here of selections that are reachable but not explored.
-/

namespace RollMenu.Validation

/-- The selections that the search looks at, unless it fails before. -/
inductive Explored (m : Menu) : Progress → Prop where
  | root : Explored m {}
  | step {p : Progress} {parameter : Parameter} {c : Choice} (h : Explored m p)
      (hp : m.pending p = some parameter) (hc : c ∈ corners parameter.choices) :
      Explored m { p with selections := p.selections ++ [c.value] }

/-- The first failure of some verdicts, in their order. -/
def firstFailure {α : Type} (verdict : α → Except ConfigError Unit) :
    List α → Except ConfigError Unit
  | [] => .ok ()
  | x :: xs =>
    match verdict x with
    | .error e => .error e
    | .ok () => firstFailure verdict xs

theorem firstFailure_eq_ok_iff {α : Type} {verdict : α → Except ConfigError Unit} {xs : List α} :
    firstFailure verdict xs = .ok () ↔ ∀ x ∈ xs, verdict x = .ok () := by
  induction xs with
  | nil => simp [firstFailure]
  | cons x xs ih =>
    rw [firstFailure, List.forall_mem_cons]
    rcases hx : verdict x with e | ⟨⟩
    · simp
    · simp [ih]

theorem exists_of_firstFailure {α : Type} {verdict : α → Except ConfigError Unit} {xs : List α}
    {e : ConfigError} (h : firstFailure verdict xs = .error e) :
    ∃ x ∈ xs, verdict x = .error e := by
  induction xs with
  | nil => cases h
  | cons x xs ih =>
    rw [firstFailure] at h
    cases hx : verdict x with
    | error e' =>
      rw [hx] at h
      obtain rfl : e' = e := Except.error.inj h
      exact ⟨x, List.mem_cons_self, hx⟩
    | ok =>
      rw [hx] at h
      obtain ⟨y, hy, he⟩ := ih h
      exact ⟨y, List.mem_cons_of_mem x hy, he⟩

/-- The verdict of reports in order is their first failure. -/
theorem Report.verdict_inOrder {α : Type} (report : α → Report) (xs : List α) :
    (inOrder report xs).verdict = firstFailure (fun x => (report x).verdict) xs := by
  induction xs with
  | nil => rfl
  | cons x xs ih =>
    rw [inOrder, firstFailure]
    cases hx : (report x).verdict with
    | error e => exact hx
    | ok => exact ih

theorem Report.inOrder_congr {α : Type} {report report' : α → Report} {xs : List α}
    (h : ∀ x ∈ xs, report x = report' x) : inOrder report xs = inOrder report' xs := by
  induction xs with
  | nil => rfl
  | cons x xs ih =>
    obtain ⟨hx, hxs⟩ := List.forall_mem_cons.mp h
    rw [inOrder, inOrder, hx, ih hxs]

theorem mem_of_mem_corners {choices : List Choice} {c : Choice} (h : c ∈ corners choices) :
    c ∈ choices :=
  (List.mem_filter.mp h).1

theorem firstRepeated_eq_none_iff {seen values : List String} :
    firstRepeated seen values = none ↔ values.Nodup ∧ ∀ v ∈ values, v ∉ seen := by
  induction values generalizing seen with
  | nil => simp [firstRepeated]
  | cons v vs ih =>
    rw [firstRepeated, List.nodup_cons, List.forall_mem_cons]
    by_cases hv : v ∈ seen
    · simp [hv]
    · rw [if_neg (by simpa using hv), ih]
      -- what follows is neither `v` nor seen before
      simp only [List.mem_cons, not_or]
      constructor
      · rintro ⟨hnodup, hvs⟩
        exact ⟨⟨fun h => (hvs v h).1 rfl, hnodup⟩, hv, fun u hu => (hvs u hu).2⟩
      · rintro ⟨⟨hnot, hnodup⟩, -, hvs⟩
        exact ⟨hnodup, fun u hu => ⟨fun he => hnot (he ▸ hu), hvs u hu⟩⟩

namespace Search

variable {s : Search} {p : Progress} {parameter : Parameter} {left : Nat}

/-! ### What a visit does -/

/-- A complete selection is taken to the engine. -/
theorem visit_of_complete (h : s.menu.pending p = none) : s.visit left p = s.askEngine p := by
  rw [visit, Menu.status_eq_complete_iff.mpr h]

/-- An incomplete one is turned down for its own defect, if it has one. -/
theorem visit_of_defect {e : ConfigError} (hp : s.menu.pending p = some parameter)
    (h : s.defect p parameter = some e) : s.visit left p = .rejected e := by
  have hstatus := Menu.status_ne_complete hp
  rw [visit]
  split
  · contradiction
  · simp only [hp, h]

/-- Where nothing is left to be filled in, nothing is followed. -/
theorem visit_zero_of_fine (hp : s.menu.pending p = some parameter)
    (h : s.defect p parameter = none) : s.visit 0 p = .accepted := by
  have hstatus := Menu.status_ne_complete hp
  rw [visit]
  split
  · contradiction
  · simp only [hp, h]

/-- Taking a corner case never fails, and it appends the value of that very choice. -/
theorem advance_corner (hm : s.menu.Numbered) {c : Choice}
    (hp : s.menu.pending p = some parameter) (hc : c ∈ corners parameter.choices) :
    s.menu.advance p c.id = .ok { p with selections := p.selections ++ [c.value] } := by
  have hchoice : parameter.choice c.id = some c :=
    (hm parameter (Menu.mem_of_pending hp)).choice_id (mem_of_mem_corners hc)
  exact Menu.advance_eq_ok_iff.mpr ⟨parameter, c, hp, hchoice, rfl⟩

/-- Otherwise the corner cases are followed in order. -/
theorem visit_of_fine (hm : s.menu.Numbered) (hp : s.menu.pending p = some parameter)
    (h : s.defect p parameter = none) :
    s.visit (left + 1) p =
      Report.inOrder (fun c => s.visit left { p with selections := p.selections ++ [c.value] })
        (corners parameter.choices) := by
  have hstatus := Menu.status_ne_complete hp
  rw [visit]
  split
  · contradiction
  simp only [hp, h]
  refine Report.inOrder_congr fun c hc => ?_
  rw [advance_corner hm hp hc]

/-- **A selection without a defect** leaves room for another one, its placeholder offers no value
twice, and its buttons have ids that are short enough. -/
theorem defect_eq_none_iff :
    s.defect p parameter = none ↔
      p.selections.length < s.maxPlaceholders ∧ (parameter.choices.map Choice.value).Nodup ∧
        ∀ b ∈ s.menu.buttons p s.target, b.id.length ≤ s.menu.limits.maxIdLength.toNat := by
  have hrepeated : firstRepeated [] (parameter.choices.map Choice.value) = none ↔
      (parameter.choices.map Choice.value).Nodup := by
    simp [firstRepeated_eq_none_iff]
  have hlong : s.longId p = none ↔
      ∀ b ∈ s.menu.buttons p s.target, b.id.length ≤ s.menu.limits.maxIdLength.toNat := by
    simp [longId]
  unfold defect
  split
  · rename_i hdepth
    simp [Nat.not_lt.mpr hdepth]
  · rename_i hdepth
    rw [← hrepeated]
    cases firstRepeated [] (parameter.choices.map Choice.value) with
    | some value => simp
    | none => simp [Nat.lt_of_not_le hdepth, hlong]

/-! ### What a search that accepts has accepted -/

/-- A search that accepts has found no defect in the selection that it starts from, and it has
accepted from each of its corner cases on. -/
theorem visit_step (hm : s.menu.Numbered) (h : (s.visit (left + 1) p).verdict = .ok ())
    (hp : s.menu.pending p = some parameter) :
    s.defect p parameter = none ∧ ∀ c ∈ corners parameter.choices,
      (s.visit left { p with selections := p.selections ++ [c.value] }).verdict = .ok () := by
  cases hdefect : s.defect p parameter with
  | some e =>
    rw [visit_of_defect hp hdefect] at h
    cases h
  | none =>
    rw [visit_of_fine hm hp hdefect, Report.verdict_inOrder, firstFailure_eq_ok_iff] at h
    exact ⟨rfl, h⟩

/-- Something is pending, so a placeholder is left to take the next step. -/
theorem exists_left_of_pending (hp : s.menu.pending p = some parameter) :
    ∃ left, s.menu.size - p.selections.length = left + 1 := by
  have hlt := Menu.lt_size_of_pending hp
  exact ⟨s.menu.size - p.selections.length - 1, by omega⟩

/-- **A search that accepts has accepted from every explored selection on.** -/
theorem verdict_of_explored (hm : s.menu.Numbered) (h : (s.visit s.menu.size {}).verdict = .ok ())
    (hp : Explored s.menu p) :
    (s.visit (s.menu.size - p.selections.length) p).verdict = .ok () := by
  induction hp with
  | root => exact h
  | @step p parameter c hp hpending hc ih =>
    obtain ⟨left, hleft⟩ := exists_left_of_pending hpending
    have hnext : s.menu.size - (p.selections ++ [c.value]).length = left := by
      rw [List.length_append, List.length_singleton]
      omega
    rw [hleft] at ih
    rw [hnext]
    exact (visit_step hm ih hpending).2 c hc

/-- **An explored selection that is not complete has no defect.** -/
theorem defect_of_explored (hm : s.menu.Numbered) (h : (s.visit s.menu.size {}).verdict = .ok ())
    (hp : Explored s.menu p) (hpending : s.menu.pending p = some parameter) :
    s.defect p parameter = none := by
  have hverdict := verdict_of_explored hm h hp
  obtain ⟨left, hleft⟩ := exists_left_of_pending hpending
  rw [hleft] at hverdict
  exact (visit_step hm hverdict hpending).1

/-- So all its buttons have ids that are short enough. -/
theorem length_id_of_explored (hm : s.menu.Numbered)
    (h : (s.visit s.menu.size {}).verdict = .ok ()) (hp : Explored s.menu p) {b : Button}
    (hb : b ∈ s.menu.buttons p s.target) : b.id.length ≤ s.menu.limits.maxIdLength.toNat := by
  obtain ⟨parameter, hpending, -⟩ := Menu.exists_click_of_mem_buttons hb
  exact (defect_eq_none_iff.mp (defect_of_explored hm h hp hpending)).2.2 b hb

end Search

/-! ## Accepted configurations -/

/-- The search for a configuration whose template has been compiled. -/
def searchOf (menu : Menu) (config : Config) (complaint : String → Option String) : Search where
  menu
  target := config.answerTarget
  format := config.answerFormat
  complaint

/-- What is checked before the search. It gives the menu that is searched. -/
def upFront (limits : Limits) (config : Config) : Except ConfigError Menu :=
  match firstReserved 0 config.template.toList with
  | some (position, c) => .error (.malformed ⟨position, .reserved c⟩)
  | none =>
    match Menu.compile limits config.template with
    | .error e => .error e
    | .ok menu =>
      let limits := menu.limits
      if menu.parameters.isEmpty then .error (.malformed ⟨0, .noPlaceholder⟩)
      else if exceedsDepth menu then .error (.tooManyPlaceholders limits.maxPlaceholders.toNat)
      else if limits.maxPaths.toNat < pathCount menu then
        .error (.tooManyPaths (pathCount menu) limits.maxPaths.toNat)
      else .ok menu

/-- A configuration is checked up front and then searched. -/
theorem report_eq (limits : Limits) (config : Config) (complaint : String → Option String) :
    report limits config complaint =
      match upFront limits config with
      | .error e => .rejected e
      | .ok menu => (searchOf menu config complaint).visit menu.size {} := by
  unfold report upFront
  cases firstReserved 0 config.template.toList with
  | some reserved => rfl
  | none =>
    cases Menu.compile limits config.template with
    | error e => rfl
    | ok menu =>
      dsimp only [searchMenu]
      split
      · rfl
      split
      · rfl
      split
      · rfl
      · rfl

/-- Everything that the checks before the search can come to. -/
inductive UpFrontCase (limits : Limits) (config : Config) : Except ConfigError Menu → Prop where
  | reserved (fault : Template.Fault) : UpFrontCase limits config (.error (.malformed fault))
  | unreadable {e : ConfigError} (hmenu : Menu.compile limits config.template = .error e) :
      UpFrontCase limits config (.error e)
  | empty (fault : Template.Fault) : UpFrontCase limits config (.error (.malformed fault))
  | deep {menu : Menu} (hreserved : firstReserved 0 config.template.toList = none)
      (hmenu : Menu.compile limits config.template = .ok menu) (hne : menu.parameters ≠ [])
      (hdeep : exceedsDepth menu = true) :
      UpFrontCase limits config (.error (.tooManyPlaceholders menu.limits.maxPlaceholders.toNat))
  | wide {menu : Menu} (hmenu : Menu.compile limits config.template = .ok menu)
      (hwide : menu.limits.maxPaths.toNat < pathCount menu) :
      UpFrontCase limits config
        (.error (.tooManyPaths (pathCount menu) menu.limits.maxPaths.toNat))
  | passed {menu : Menu} (hmenu : Menu.compile limits config.template = .ok menu)
      (hne : menu.parameters ≠ []) (hdepth : exceedsDepth menu = false)
      (hpaths : pathCount menu ≤ menu.limits.maxPaths.toNat) :
      UpFrontCase limits config (.ok menu)

/-- **What the checks before the search come to.** -/
theorem upFront_cases (limits : Limits) (config : Config) :
    UpFrontCase limits config (upFront limits config) := by
  unfold upFront
  cases hreserved : firstReserved 0 config.template.toList with
  | some reserved => exact .reserved _
  | none =>
    cases hmenu : Menu.compile limits config.template with
    | error e => exact .unreadable hmenu
    | ok menu =>
      dsimp only
      split
      · exact .empty _
      rename_i hne
      have hne : menu.parameters ≠ [] := fun hnil => hne (by rw [hnil]; rfl)
      split
      · rename_i hdeep
        exact .deep hreserved hmenu hne hdeep
      rename_i hdepth
      split
      · rename_i hwide
        exact .wide hmenu hwide
      · rename_i hpaths
        exact .passed hmenu hne (Bool.eq_false_of_not_eq_true hdepth) (Nat.le_of_not_lt hpaths)

/-- The menu that is searched. -/
theorem upFront_eq_ok_iff {limits : Limits} {config : Config} {menu : Menu} :
    upFront limits config = .ok menu ↔
      firstReserved 0 config.template.toList = none ∧
        Menu.compile limits config.template = .ok menu ∧ menu.parameters ≠ [] ∧
        exceedsDepth menu = false ∧ pathCount menu ≤ menu.limits.maxPaths.toNat := by
  constructor
  · intro h
    have hreserved : firstReserved 0 config.template.toList = none := by
      unfold upFront at h
      split at h
      · cases h
      · assumption
    have hcase := upFront_cases limits config
    rw [h] at hcase
    cases hcase with
    | passed hmenu hne hdepth hpaths => exact ⟨hreserved, hmenu, hne, hdepth, hpaths⟩
  · rintro ⟨hreserved, hmenu, hne, hdepth, hpaths⟩
    have hfilled : ¬ menu.parameters.isEmpty = true := by simpa using hne
    have hnarrow : ¬ menu.limits.maxPaths.toNat < pathCount menu := Nat.not_lt.mpr hpaths
    unfold upFront
    simp only [hreserved, hmenu, if_neg hfilled, hdepth, Bool.false_eq_true, if_false,
      if_neg hnarrow]

/-- **A configuration is accepted when it passes up front and the search accepts.** -/
theorem validate_eq_ok_iff {limits : Limits} {config : Config}
    {complaint : String → Option String} :
    validate limits config complaint = .ok () ↔
      ∃ menu, upFront limits config = .ok menu ∧
        ((searchOf menu config complaint).visit menu.size {}).verdict = .ok () := by
  rw [validate, report_eq]
  cases upFront limits config with
  | error e => simp [Report.rejected]
  | ok menu => simp

theorem visit_of_validate {limits : Limits} {config : Config} {complaint : String → Option String}
    (h : validate limits config complaint = .ok ()) :
    ∃ menu, Menu.compile limits config.template = .ok menu ∧
      ((searchOf menu config complaint).visit menu.size {}).verdict = .ok () := by
  obtain ⟨menu, hupFront, hvisit⟩ := validate_eq_ok_iff.mp h
  exact ⟨menu, (upFront_eq_ok_iff.mp hupFront).2.1, hvisit⟩

end RollMenu.Validation
