import RollMenu.Proofs.Corners
import RollMenu.Proofs.ParallelSearch

/-!
# How often the engine is asked

Checking an expression may be costly, so the number of paths is bounded before the search
begins. The bound is a product, of the corner cases of the first placeholders only, and it
is computed in one word; the search is a recursion whose branches end at different depths,
where a direct choice is made or where everything is filled in.

Three facts connect them. Below the bound on the depth no visited selection gets past the
placeholders that are counted. No placeholder is without a corner case, so a path that
ends early takes no more of the product than its share. And a product that fits under a
ceiling below the greatest word has not been cut off.
-/

namespace RollMenu.Validation

/-! ## The product -/

/-- How many corner cases each placeholder has, as far down as a search may get. -/
def branching (menu : Menu) : List Nat :=
  (menu.parameters.take menu.limits.maxPlaceholders.toNat).map fun q => (corners q.choices).length

theorem saturatingMul_min (a b : Nat) :
    saturatingMul (min a (Decimal.wordBound - 1)) b = min (a * b) (Decimal.wordBound - 1) := by
  unfold saturatingMul
  generalize Decimal.wordBound - 1 = bound
  rcases Nat.le_total a bound with ha | ha
  · rw [Nat.min_eq_left ha]
  · rw [Nat.min_eq_right ha]
    -- the product is past the bound in either case, unless it is nothing at all
    cases b with
    | zero => rfl
    | succ b =>
      have hbound : bound ≤ bound * (b + 1) := Nat.le_mul_of_pos_right bound b.succ_pos
      have hproduct : bound * (b + 1) ≤ a * (b + 1) := Nat.mul_le_mul_right (b + 1) ha
      rw [Nat.min_eq_right hbound, Nat.min_eq_right (hbound.trans hproduct)]

/-- Saturating on the way is saturating at the end. -/
theorem foldl_saturatingMul (a : Nat) (ns : List Nat) :
    ns.foldl saturatingMul (min a (Decimal.wordBound - 1)) =
      min (a * ns.prod) (Decimal.wordBound - 1) := by
  induction ns generalizing a with
  | nil => rw [List.foldl_nil, List.prod_nil, Nat.mul_one]
  | cons n ns ih => rw [List.foldl_cons, saturatingMul_min, ih, List.prod_cons, Nat.mul_assoc]

/-- **A path count under a ceiling below the greatest word is the product itself.** -/
theorem prod_branching_eq_pathCount {menu : Menu} {ceiling : Nat}
    (hceiling : ceiling < UInt64.size - 1) (h : pathCount menu ≤ ceiling) :
    (branching menu).prod = pathCount menu := by
  have hcount : pathCount menu = min (branching menu).prod (UInt64.size - 1) := by
    have hfold := foldl_saturatingMul 1 (branching menu)
    rw [Nat.one_mul] at hfold
    exact hfold
  omega

/-- How many paths there are at most from `k` selections on. -/
def pathsFrom (menu : Menu) (k : Nat) : Nat := ((branching menu).drop k).prod

theorem one_le_pathsFrom {menu : Menu} (hne : ∀ q ∈ menu.parameters, q.choices ≠ []) (k : Nat) :
    1 ≤ pathsFrom menu k := by
  refine Nat.one_le_iff_ne_zero.mpr ?_
  intro hzero
  have hmem := List.mem_of_mem_drop (List.prod_eq_zero_iff.mp hzero)
  obtain ⟨q, hq, hlength⟩ := List.mem_map.mp hmem
  have hchoices := hne q (List.mem_of_mem_take hq)
  exact corners_ne_nil hchoices (List.length_eq_zero_iff.mp hlength)

/-- A placeholder that is counted multiplies the paths behind it. -/
theorem pathsFrom_eq {menu : Menu} {parameter : Parameter} {k : Nat}
    (hk : k < menu.limits.maxPlaceholders.toNat) (hget : menu.parameters[k]? = some parameter) :
    pathsFrom menu k = (corners parameter.choices).length * pathsFrom menu (k + 1) := by
  have hcount : (branching menu)[k]? = some (corners parameter.choices).length := by
    rw [branching, List.getElem?_map, List.getElem?_take_of_lt hk, hget, Option.map_some]
  obtain ⟨hlt, hvalue⟩ := List.getElem?_eq_some_iff.mp hcount
  rw [pathsFrom, List.drop_eq_getElem_cons hlt, hvalue, List.prod_cons, pathsFrom]

/-! ## The calls of a run -/

namespace Search

variable {s : Search} {p : Progress} {answer : Progress → Option String} {calls : List Progress}
  {verdict : Except ConfigError Unit}

/-- What holds of the calls to the engine that a run from a selection on makes. -/
structure Bounded (s : Search) (p : Progress) (calls : List Progress) : Prop where
  /-- The engine is asked at complete selections that are visited. -/
  leaf : ∀ q ∈ calls, s.Visited q ∧ s.menu.pending q = none
  /-- They go on from where the run has started. -/
  behind : ∀ q ∈ calls, p.selections <+: q.selections
  /-- No selection is asked about twice. -/
  nodup : calls.Nodup
  /-- There are no more than paths. -/
  length_le : calls.length ≤ pathsFrom s.menu p.selections.length

theorem Bounded.nil : s.Bounded p [] where
  leaf := by simp
  behind := by simp
  nodup := List.nodup_nil
  length_le := Nat.zero_le _

theorem Bounded.leaf_self (hne : ∀ q ∈ s.menu.parameters, q.choices ≠ []) (h : s.Visited p)
    (hp : s.menu.pending p = none) : s.Bounded p [p] where
  leaf := by
    intro q hq
    obtain rfl := List.mem_singleton.mp hq
    exact ⟨h, hp⟩
  behind := by
    intro q hq
    obtain rfl := List.mem_singleton.mp hq
    exact List.prefix_refl q.selections
  nodup := List.nodup_singleton p
  length_le := one_le_pathsFrom hne p.selections.length

/-- Calls of different branches differ in the value that the branch begins with. -/
theorem nodup_flatMap_of_branches {tried : List Choice} {asked : Choice → List Progress}
    (hvalues : (tried.map Choice.value).Nodup) (hnodup : ∀ c ∈ tried, (asked c).Nodup)
    (hbehind : ∀ c ∈ tried, ∀ q ∈ asked c, p.selections ++ [c.value] <+: q.selections) :
    (tried.flatMap asked).Nodup := by
  refine List.nodup_flatMap.mpr ⟨hnodup, ?_⟩
  have hpairs : tried.Pairwise fun c d => c.value ≠ d.value := List.pairwise_map.mp hvalues
  refine hpairs.imp_of_mem ?_
  intro c d hc hd hne q hq hq'
  have htake := List.prefix_iff_eq_take.mp (hbehind c hc q hq)
  have htake' := List.prefix_iff_eq_take.mp (hbehind d hd q hq')
  rw [List.length_append, List.length_singleton] at htake htake'
  have heq := List.append_cancel_left (htake.trans htake'.symm)
  exact hne (List.singleton_inj.mp heq)

theorem length_flatMap_le {tried : List Choice} {asked : Choice → List Progress} {n : Nat}
    (h : ∀ c ∈ tried, (asked c).length ≤ n) :
    (tried.flatMap asked).length ≤ tried.length * n := by
  have hlengths : ∀ k ∈ tried.map fun c => (asked c).length, k ≤ n := by
    intro k hk
    obtain ⟨c, hc, rfl⟩ := List.mem_map.mp hk
    exact h c hc
  have hsum := List.sum_le_card_nsmul _ n hlengths
  rwa [List.length_map, smul_eq_mul, ← List.length_flatMap] at hsum

/-- **The branches of a selection keep within the paths that are counted for it.** -/
theorem Bounded.branches (hm : s.menu.Numbered) (hdepth : exceedsDepth s.menu = false)
    (h : s.Visited p) {parameter : Parameter} (hp : s.menu.pending p = some parameter)
    (hfine : s.defect p parameter = none) {tried : List Choice}
    (htried : tried.Sublist (corners parameter.choices)) {asked : Choice → List Progress}
    (hasked : ∀ c ∈ tried,
      s.Bounded { p with selections := p.selections ++ [c.value] } (asked c))
    (hcalls : calls.Perm (tried.flatMap asked)) : s.Bounded p calls where
  leaf := by
    intro q hq
    obtain ⟨c, hc, hq⟩ := List.mem_flatMap.mp (hcalls.mem_iff.mp hq)
    exact (hasked c hc).leaf q hq
  behind := by
    intro q hq
    obtain ⟨c, hc, hq⟩ := List.mem_flatMap.mp (hcalls.mem_iff.mp hq)
    exact (List.prefix_append p.selections [c.value]).trans ((hasked c hc).behind q hq)
  nodup := by
    have hget := (Menu.pending_eq_some_iff.mp hp).2
    have hall := (soundAt_of_defect_eq_none hp hfine).2 parameter hget
    have hsublist : tried.Sublist parameter.choices := htried.trans List.filter_sublist
    have hvalues : (tried.map Choice.value).Nodup := (hsublist.map Choice.value).nodup hall
    refine hcalls.nodup_iff.mpr (nodup_flatMap_of_branches (p := p) hvalues ?_ ?_)
    · intro c hc
      exact (hasked c hc).nodup
    · intro c hc q hq
      exact (hasked c hc).behind q hq
  length_le := by
    have hroom := lt_maxPlaceholders_of_visited hm hdepth h hp
    have hget := (Menu.pending_eq_some_iff.mp hp).2
    have hbranch : ∀ c ∈ tried,
        (asked c).length ≤ pathsFrom s.menu (p.selections.length + 1) := by
      intro c hc
      have hle := (hasked c hc).length_le
      rw [List.length_append, List.length_singleton] at hle
      exact hle
    calc calls.length
        = (tried.flatMap asked).length := hcalls.length_eq
      _ ≤ tried.length * pathsFrom s.menu (p.selections.length + 1) := length_flatMap_le hbranch
      _ ≤ (corners parameter.choices).length * pathsFrom s.menu (p.selections.length + 1) :=
          Nat.mul_le_mul_right _ htried.length_le
      _ = pathsFrom s.menu p.selections.length := (pathsFrom_eq hroom hget).symm

/-- **The calls of every run are bounded.** -/
theorem Run.bounded (hne : ∀ q ∈ s.menu.parameters, q.choices ≠ []) (hm : s.menu.Numbered)
    (hdepth : exceedsDepth s.menu = false) (hvisited : s.Visited p)
    (h : s.Run answer p calls verdict) : s.Bounded p calls := by
  induction h with
  | complete hroll => exact .leaf_self hne hvisited (pending_of_rollRequest hroll)
  | idle => exact .nil
  | defect => exact .nil
  | branches hp hfine htried _ _ hcalls ih =>
    refine .branches hm hdepth hvisited hp hfine htried.sublist ?_ hcalls
    intro c hc
    have hadvance := advance_corner hm hp (htried.sublist.subset hc)
    exact ih c hc _ hadvance (.step hvisited hp hfine (htried.sublist.subset hc) hadvance)

/-- A run that fails reports what is searched for, also with the branches side by side. -/
theorem Run.fromSearch (hm : s.menu.Numbered) (hdepth : exceedsDepth s.menu = false)
    (hvisited : s.Visited p) {e : ConfigError} (h : s.Run answer p calls verdict)
    (he : verdict = .error e) : e.FromSearch := by
  induction h with
  | @complete p roll hroll =>
    cases hanswer : answer p with
    | none =>
      rw [hanswer] at he
      cases he
    | some message =>
      rw [hanswer] at he
      obtain rfl := Except.error.inj he
      exact trivial
  | idle => cases he
  | defect hp hdefect =>
    obtain rfl := Except.error.inj he
    exact fromSearch_of_finding hm hdepth hvisited (.defect hp hdefect)
  | branches hp hfine htried _ _ _ ih =>
    obtain ⟨c, hc, hbranch⟩ := exists_of_firstFailure he
    have hadvance := advance_corner hm hp (htried.sublist.subset hc)
    exact ih c hc _ hadvance (.step hvisited hp hfine (htried.sublist.subset hc) hadvance) hbranch

end Search

/-! ## A whole check -/

variable {limits : Limits} {config : Config} {complaint : String → Option String}
  {answer : Progress → Option String} {calls : List Progress} {verdict : Except ConfigError Unit}

/-- A check of a configuration in any order of the branches: the calls to the engine and the
verdict. -/
inductive Checks (limits : Limits) (config : Config) (complaint : String → Option String)
    (answer : Progress → Option String) : List Progress → Except ConfigError Unit → Prop where
  | refused {e : ConfigError} (h : upFront limits config = .error e) :
      Checks limits config complaint answer [] (.error e)
  | searched {menu : Menu} {calls : List Progress} {verdict : Except ConfigError Unit}
      (h : upFront limits config = .ok menu)
      (hrun : (searchOf menu config complaint).Run answer {} calls verdict) :
      Checks limits config complaint answer calls verdict

/-- The answers of an engine whose problem with an expression is always the same. -/
def steadyAnswer (limits : Limits) (config : Config) (complaint : String → Option String)
    (p : Progress) : Option String :=
  match Menu.compile limits config.template with
  | .error _ => none
  | .ok menu => (searchOf menu config complaint).honest p

theorem Checks.bounded (h : Checks limits config complaint answer calls verdict) :
    calls = [] ∨ ∃ menu, Searched limits config menu ∧
      (searchOf menu config complaint).Bounded {} calls := by
  cases h with
  | refused => exact Or.inl rfl
  | @searched menu _ _ hupFront hrun =>
    have hmenu := searched_of_upFront hupFront
    exact Or.inr ⟨menu, hmenu,
      hrun.bounded hmenu.choices_ne_nil hmenu.numbered hmenu.depth .root⟩

/-- A check that has called the engine fails for what is searched for, if at all. -/
theorem Checks.fromSearch (h : Checks limits config complaint answer calls verdict)
    (hcalls : calls ≠ []) {e : ConfigError} (he : verdict = .error e) : e.FromSearch := by
  cases h with
  | refused => exact absurd rfl hcalls
  | searched hupFront hrun =>
    have hmenu := searched_of_upFront hupFront
    exact hrun.fromSearch hmenu.numbered hmenu.depth .root he

theorem steadyAnswer_eq {menu : Menu} (h : Menu.compile limits config.template = .ok menu) :
    steadyAnswer limits config complaint = (searchOf menu config complaint).honest := by
  funext p
  rw [steadyAnswer, h]

/-- The order of the branches makes no difference to the verdict of a check. -/
theorem Checks.verdict_eq
    (h : Checks limits config complaint (steadyAnswer limits config complaint) calls verdict) :
    verdict = validate limits config complaint := by
  rw [validate, report_eq]
  cases h with
  | refused hupFront =>
    rw [hupFront]
    rfl
  | @searched menu _ _ hupFront hrun =>
    have hmenu := searched_of_upFront hupFront
    rw [steadyAnswer_eq hmenu.compiled] at hrun
    rw [hupFront]
    exact hrun.verdict_eq hmenu.numbered (Nat.sub_le _ _)

/-- The check one branch after the other is one of the checks. -/
theorem exists_checks (limits : Limits) (config : Config) (complaint : String → Option String) :
    ∃ calls, Checks limits config complaint (steadyAnswer limits config complaint) calls
        (validate limits config complaint) ∧
      ∀ menu, Menu.compile limits config.template = .ok menu →
        (report limits config complaint).asked.map some =
          calls.map (searchOf menu config complaint).expression? := by
  rw [validate, report_eq]
  cases hupFront : upFront limits config with
  | error e => exact ⟨[], .refused hupFront, fun _ _ => rfl⟩
  | ok menu =>
    have hmenu := searched_of_upFront hupFront
    obtain ⟨calls, hrun, hasked⟩ := Search.exists_run (s := searchOf menu config complaint)
      (p := {}) hmenu.numbered (Nat.sub_le _ _)
    rw [← steadyAnswer_eq hmenu.compiled] at hrun
    refine ⟨calls, .searched hupFront hrun, ?_⟩
    intro other hother
    obtain rfl := Except.ok.inj (hmenu.compiled.symm.trans hother)
    exact hasked

/--
**The ceiling on the paths bounds the calls to the engine.** Whatever the order of the
branches and whatever the engine answers, a check asks at most once about each complete
selection of corner cases, at most as often as paths have been counted, and so within the
ceiling. If it has asked at all, it fails for a defect that the search is made for, and for
none of what is checked up front. With an engine that goes by the expression the verdict does
not depend on the order, and the check one branch after the other is one of those meant here.
-/
theorem calls_within_pathCount {limits : Limits}
    (hceiling : limits.maxPaths.toNat < UInt64.size - 1) (config : Config)
    (complaint : String → Option String) :
    (∀ answer calls verdict, Checks limits config complaint answer calls verdict →
      calls.Nodup ∧
      (calls = [] ∨ ∃ menu, Menu.compile limits config.template = .ok menu ∧
        (∀ p ∈ calls, Explored menu p ∧ menu.status p = .complete) ∧
        calls.length ≤ pathCount menu ∧ pathCount menu ≤ limits.maxPaths.toNat) ∧
      (∀ e, verdict = .error e → ¬ e.FromSearch → calls = []) ∧
      (answer = steadyAnswer limits config complaint →
        verdict = validate limits config complaint)) ∧
    ∃ calls, Checks limits config complaint (steadyAnswer limits config complaint) calls
        (validate limits config complaint) ∧
      ∀ menu, Menu.compile limits config.template = .ok menu →
        (report limits config complaint).asked.map some =
          calls.map (searchOf menu config complaint).expression? := by
  refine ⟨?_, exists_checks limits config complaint⟩
  intro answer calls verdict h
  refine ⟨?_, ?_, ?_, ?_⟩
  · rcases h.bounded with rfl | ⟨menu, -, hbounded⟩
    · exact List.nodup_nil
    · exact hbounded.nodup
  · rcases h.bounded with hnil | ⟨menu, hmenu, hbounded⟩
    · exact Or.inl hnil
    · have hproduct := prod_branching_eq_pathCount hceiling hmenu.pathCount_le
      have hlength : calls.length ≤ pathCount menu := hproduct ▸ hbounded.length_le
      refine Or.inr ⟨menu, hmenu.compiled, ?_, hlength, hmenu.pathCount_le⟩
      intro p hp
      obtain ⟨hvisited, hcomplete⟩ := hbounded.leaf p hp
      exact ⟨hvisited.explored hmenu.numbered, Menu.status_eq_complete_iff.mpr hcomplete⟩
  · intro e he hkind
    by_contra hcalls
    exact hkind (h.fromSearch hcalls he)
  · rintro rfl
    exact h.verdict_eq

/-- A ceiling of four lets four calls pass, and the check makes all of them. -/
theorem calls_within_pathCount_of_four :
    (report { maxPaths := 4 } { template := "{A:1/2}+{B:x/y}" } fun _ => none).asked =
        ["1+x", "1+y", "2+x", "2+y"] ∧
      ∀ answer calls verdict,
        Checks { maxPaths := 4 } { template := "{A:1/2}+{B:x/y}" } (fun _ => none) answer calls
          verdict → calls.Nodup ∧ calls.length ≤ 4 := by
  refine ⟨by cbv, ?_⟩
  intro answer calls verdict h
  obtain ⟨hnodup, hlength, -⟩ := (calls_within_pathCount (by decide) _ _).1 answer calls verdict h
  refine ⟨hnodup, ?_⟩
  rcases hlength with rfl | ⟨menu, -, -, hpaths, hceiling⟩
  · exact Nat.zero_le 4
  · exact hpaths.trans hceiling

end RollMenu.Validation
