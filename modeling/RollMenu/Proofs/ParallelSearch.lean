import RollMenu.Proofs.VisitedSelections

/-!
# Searching branches side by side

The branches of a selection do not depend on each other, so a search may run them at the
same time. What it reports is still the first failure in the order of the choices: a
branch may be passed over only if a branch before it has failed. `Run` is a search in
any such order, with all calls to the engine that it makes, in the order in which they
happen to be made.

Two things are said about it. The order makes no difference to the verdict, as long as
the engine answers by the expression alone; and the search one branch after the other is
one of the runs, so what holds of every run holds of it. Both go by induction along the
run, and the step is about lists only: leaving out branches behind a failure leaves the
first failure what it is.
-/

namespace RollMenu.Validation

/-! ## Branches that are tried -/

/-- Which of some branches are tried when those behind one that fails may be passed over. -/
inductive Tried {α : Type} (verdict : α → Except ConfigError Unit) : List α → List α → Prop where
  | nil : Tried verdict [] []
  | passed {x : α} {xs ts : List α} (hx : verdict x = .ok ()) (h : Tried verdict xs ts) :
      Tried verdict (x :: xs) (x :: ts)
  | failed {x : α} {xs ts : List α} {e : ConfigError} (hx : verdict x = .error e)
      (h : ts.Sublist xs) : Tried verdict (x :: xs) (x :: ts)

theorem Tried.sublist {α : Type} {verdict : α → Except ConfigError Unit} {xs ts : List α}
    (h : Tried verdict xs ts) : ts.Sublist xs := by
  induction h with
  | nil => exact List.Sublist.refl []
  | passed _ _ ih => exact ih.cons_cons _
  | failed _ h => exact h.cons_cons _

/-- **The first failure of the branches that are tried is that of all branches.** -/
theorem Tried.firstFailure_eq {α : Type} {verdict verdict' : α → Except ConfigError Unit}
    {xs ts : List α} (h : Tried verdict xs ts) (heq : ∀ t ∈ ts, verdict t = verdict' t) :
    firstFailure verdict ts = firstFailure verdict' xs := by
  induction h with
  | nil => rfl
  | @passed x xs ts hx _ ih =>
    obtain ⟨hfirst, hrest⟩ := List.forall_mem_cons.mp heq
    rw [firstFailure, firstFailure, ← hfirst, hx]
    exact ih hrest
  | @failed x xs ts e hx _ =>
    obtain ⟨hfirst, -⟩ := List.forall_mem_cons.mp heq
    rw [firstFailure, firstFailure, ← hfirst, hx]

/-- Reports in order are those on branches that are tried, up to the first failure. -/
theorem Report.exists_tried {α : Type} (report : α → Report) (xs : List α) :
    ∃ ts, Tried (fun x => (report x).verdict) xs ts ∧
      inOrder report xs =
        { asked := ts.flatMap fun t => (report t).asked
          verdict := firstFailure (fun t => (report t).verdict) ts } := by
  induction xs with
  | nil => exact ⟨[], .nil, rfl⟩
  | cons x xs ih =>
    obtain ⟨ts, htried, hreports⟩ := ih
    rw [inOrder]
    cases hx : (report x).verdict with
    | error e =>
      refine ⟨[x], .failed hx (List.nil_sublist xs), ?_⟩
      simp only [List.flatMap_singleton, firstFailure, hx]
      rw [← hx]
    | ok =>
      refine ⟨x :: ts, .passed hx htried, ?_⟩
      rw [hreports, List.flatMap_cons, firstFailure, hx]

namespace Search

variable {s : Search} {p : Progress} {answer : Progress → Option String} {calls : List Progress}
  {verdict : Except ConfigError Unit}

/-! ## Runs -/

/-- What the answer about a complete selection comes to. -/
def answered (expression : String) : Option String → Except ConfigError Unit
  | none => .ok ()
  | some message => .error (.expressionInvalid expression message)

/-- A search from a selection on that may run branches side by side: the complete selections
that it asks the engine about, in the order of the calls, and its verdict. The engine
answers `answer`, be it by the expression or not. -/
inductive Run (s : Search) (answer : Progress → Option String) :
    Progress → List Progress → Except ConfigError Unit → Prop where
  | complete {p : Progress} {roll : RollRequest}
      (hroll : s.menu.rollRequest p s.format = some roll) :
      Run s answer p [p] (answered roll.expression (answer p))
  | idle {p : Progress} (hstatus : s.menu.status p ≠ .complete) (hp : s.menu.pending p = none) :
      Run s answer p [] (.ok ())
  | defect {p : Progress} {parameter : Parameter} {e : ConfigError}
      (hp : s.menu.pending p = some parameter) (h : s.defect p parameter = some e) :
      Run s answer p [] (.error e)
  | branches {p : Progress} {parameter : Parameter} {tried : List Choice}
      {asked : Choice → List Progress} {verdict : Choice → Except ConfigError Unit}
      {calls : List Progress} (hp : s.menu.pending p = some parameter)
      (hfine : s.defect p parameter = none)
      (htried : Tried verdict (corners parameter.choices) tried)
      (htaken : ∀ c ∈ tried, ∀ next, s.menu.advance p c.id = .ok next →
        Run s answer next (asked c) (verdict c))
      (hrefused : ∀ c ∈ tried, ∀ refusal, s.menu.advance p c.id = .error refusal →
        asked c = [] ∧ verdict c = .error (.refusedChoice parameter.placeholder.start refusal))
      (hcalls : calls.Perm (tried.flatMap asked)) :
      Run s answer p calls (firstFailure verdict tried)

/-- The engine's answers by the expression. -/
def honest (s : Search) (p : Progress) : Option String :=
  (s.menu.rollRequest p s.format).bind fun roll => s.complaint roll.expression

/-- The expression that the engine is asked about at a complete selection. -/
def expression? (s : Search) (p : Progress) : Option String :=
  (s.menu.rollRequest p s.format).map RollRequest.expression

theorem askEngine_eq {roll : RollRequest} (hroll : s.menu.rollRequest p s.format = some roll) :
    s.askEngine p =
      { asked := [roll.expression], verdict := answered roll.expression (s.honest p) } := by
  have hanswer : s.honest p = s.complaint roll.expression := by
    rw [honest, hroll, Option.bind_some]
  unfold askEngine
  simp only [hroll, hanswer]
  cases s.complaint roll.expression <;> rfl

/-- There is a roll to ask about when nothing is pending any more. -/
theorem pending_of_rollRequest {roll : RollRequest}
    (hroll : s.menu.rollRequest p s.format = some roll) : s.menu.pending p = none := by
  cases hp : s.menu.pending p with
  | none => rfl
  | some parameter =>
    rw [Menu.rollRequest_eq_none_iff.mpr ⟨parameter, hp⟩] at hroll
    cases hroll

/-- **Whatever the order, the verdict of a run is that of the search one after the other.** -/
theorem Run.verdict_eq (hm : s.menu.Numbered) (h : s.Run s.honest p calls verdict) {left : Nat}
    (hleft : s.menu.size - p.selections.length ≤ left) : verdict = (s.visit left p).verdict := by
  induction h generalizing left with
  | @complete p roll hroll =>
    rw [visit_of_complete (pending_of_rollRequest hroll), askEngine_eq hroll]
  | idle hstatus hp => exact absurd (Menu.status_eq_complete_iff.mpr hp) hstatus
  | defect hp h =>
    rw [visit_of_defect hp h]
    rfl
  | @branches p parameter tried asked verdict calls hp hfine htried _ _ _ ih =>
    have hlt := Menu.lt_size_of_pending hp
    obtain ⟨n, rfl⟩ : ∃ n, left = n + 1 := ⟨left - 1, by omega⟩
    rw [visit_of_fine hm hp hfine, Report.verdict_inOrder]
    refine htried.firstFailure_eq ?_
    intro c hc
    refine ih c hc _ (advance_corner hm hp (htried.sublist.subset hc)) ?_
    rw [List.length_append, List.length_singleton]
    omega

/-- Nothing is asked in between where a visit follows no branch. -/
theorem exists_run_of_unbranched {left : Nat}
    (h : ∀ parameter, s.menu.pending p = some parameter → s.defect p parameter ≠ none) :
    ∃ calls, s.Run s.honest p calls (s.visit left p).verdict ∧
      (s.visit left p).asked.map some = calls.map s.expression? := by
  cases hp : s.menu.pending p with
  | none =>
    obtain ⟨roll, hroll⟩ : ∃ roll, s.menu.rollRequest p s.format = some roll := by
      rw [← Option.ne_none_iff_exists', ne_eq, Menu.rollRequest_eq_none_iff, hp]
      rintro ⟨parameter, hparameter⟩
      cases hparameter
    rw [visit_of_complete hp, askEngine_eq hroll]
    refine ⟨[p], .complete hroll, ?_⟩
    have hexpression : s.expression? p = some roll.expression := by
      rw [expression?, hroll, Option.map_some]
    rw [List.map_singleton, List.map_singleton, hexpression]
  | some parameter =>
    obtain ⟨e, hdefect⟩ := Option.ne_none_iff_exists'.mp (h parameter hp)
    rw [visit_of_defect hp hdefect]
    exact ⟨[], .defect hp hdefect, rfl⟩

/-- **The search one branch after the other is one of the runs.** -/
theorem exists_run (hm : s.menu.Numbered) {left : Nat}
    (hleft : s.menu.size - p.selections.length ≤ left) :
    ∃ calls, s.Run s.honest p calls (s.visit left p).verdict ∧
      (s.visit left p).asked.map some = calls.map s.expression? := by
  induction left generalizing p with
  | zero =>
    refine exists_run_of_unbranched ?_
    intro parameter hp
    have hlt := Menu.lt_size_of_pending hp
    omega
  | succ left ih =>
    by_cases hbranched : ∃ parameter, s.menu.pending p = some parameter ∧
        s.defect p parameter = none
    · obtain ⟨parameter, hp, hfine⟩ := hbranched
      have hlt := Menu.lt_size_of_pending hp
      have hnext : ∀ c : Choice,
          s.menu.size - (p.selections ++ [c.value]).length ≤ left := by
        intro c
        rw [List.length_append, List.length_singleton]
        omega
      -- the runs of the branches, put together in order
      choose asked hruns hasked using fun c : Choice =>
        ih (p := { p with selections := p.selections ++ [c.value] }) (hnext c)
      obtain ⟨tried, htried, hreports⟩ := Report.exists_tried
        (fun c : Choice => s.visit left { p with selections := p.selections ++ [c.value] })
        (corners parameter.choices)
      rw [visit_of_fine hm hp hfine, hreports]
      refine ⟨tried.flatMap asked, .branches hp hfine htried ?_ ?_ (List.Perm.refl _), ?_⟩
      · intro c hc next hadvance
        rw [advance_corner hm hp (htried.sublist.subset hc)] at hadvance
        obtain rfl := Except.ok.inj hadvance
        exact hruns c
      · intro c hc refusal hadvance
        rw [advance_corner hm hp (htried.sublist.subset hc)] at hadvance
        cases hadvance
      · simp only [List.map_flatMap, hasked]
    · refine exists_run_of_unbranched ?_
      intro parameter hp hfine
      exact hbranched ⟨parameter, hp, hfine⟩

end Search

end RollMenu.Validation
