import RollMenu.Proofs.Explored

/-!
# Paths that are still open

A selection goes on after a value unless the value was chosen directly, so the selections
that leave a parameter pending are lists of such values, one for each parameter before
it. Both the question which depths clicks can lead to and the question which of them the
search has seen come down to one parameter after the other: clicks get past a parameter
by any value that goes on, and the search by those among them that are corner cases.

A parameter can have the first without the second. Direct choices are corner cases too,
and when the greatest and the least number are direct ones, a number between them goes on
and is passed by.
-/

namespace RollMenu

/-! ## Values after which the selection goes on -/

namespace Parameter

variable {p : Parameter}

/-- The values that are offered and do not end the selection. -/
def continuing (p : Parameter) : List String :=
  (p.choices.map Choice.value).filter fun v => (p.choiceByValue v).any fun c => !c.direct

/-- The search follows the value, and the selection goes on after it. -/
def Followed (p : Parameter) (v : String) : Prop :=
  v ∈ p.continuing ∧ ∃ c ∈ Validation.corners p.choices, c.value = v

theorem mem_continuing_iff {v : String} :
    v ∈ p.continuing ↔ ∃ c, p.choiceByValue v = some c ∧ c.direct = false := by
  rw [continuing, List.mem_filter]
  cases hc : p.choiceByValue v with
  | none => simp
  | some c =>
    obtain ⟨hmem, rfl⟩ := mem_of_choiceByValue hc
    simp [List.mem_map_of_mem hmem]

end Parameter

namespace Menu

variable {m : Menu} {vs : List String} {parameter : Parameter}

theorem replay_continuing_iff (ended : Bool) (ps : List Parameter) (vs : List String) :
    replay ended ps vs = .ok () ∧ endedAfter ended ps vs = false ↔
      ended = false ∧ List.Forall₂ (fun v p => v ∈ p.continuing) vs (ps.take vs.length) := by
  induction vs generalizing ended ps with
  | nil => simp [replay, endedAfter]
  | cons v vs ih =>
    cases ps with
    | nil => simp [replay]
    | cons p ps =>
      rw [replay_cons_iff, endedAfter, List.length_cons, List.take_succ_cons, List.forall₂_cons,
        Parameter.mem_continuing_iff]
      cases hc : p.choiceByValue v with
      | none => simp
      | some c => simp [ih, and_assoc]

/-- **A selection replays and is not complete exactly if it goes on after each value.** -/
theorem pending_iff_continuing :
    m.checkSelections vs = .ok () ∧ m.pending { selections := vs } = some parameter ↔
      m.parameters[vs.length]? = some parameter ∧
        List.Forall₂ (fun v p => v ∈ p.continuing) vs (m.parameters.take vs.length) := by
  rw [pending_eq_some_iff, endedDirectly_eq, checkSelections]
  have h := replay_continuing_iff false m.parameters vs
  tauto

/-- **A complete selection fills all placeholders, or its last value is a direct choice.** Up to
there it goes on after each value. -/
theorem filled_or_direct_of_complete (hcheck : m.checkSelections vs = .ok ()) (hne : vs ≠ [])
    (hcomplete : m.pending { selections := vs } = none) :
    (vs.length = m.size ∧
      List.Forall₂ (fun v p => v ∈ p.continuing) vs (m.parameters.take vs.length)) ∨
    ∃ us p c, vs = us ++ [c.value] ∧ m.parameters[us.length]? = some p ∧
      p.choiceByValue c.value = some c ∧ c.direct = true ∧
      List.Forall₂ (fun v p => v ∈ p.continuing) us (m.parameters.take us.length) := by
  obtain ⟨us, v, rfl⟩ := (List.eq_nil_or_concat' vs).resolve_left hne
  obtain ⟨hbefore, p, c, hp, hc⟩ := checkSelections_concat_iff.mp hcheck
  obtain ⟨hget, hcontinuing⟩ := pending_iff_continuing.mp ⟨hbefore, hp⟩
  have hvalue := (Parameter.mem_of_choiceByValue hc).2
  cases hdirect : c.direct with
  | true =>
    right
    subst hvalue
    exact ⟨us, p, c, rfl, hget, hc, hdirect, hcontinuing⟩
  | false =>
    left
    have hlength : (us ++ [v]).length = us.length + 1 := by simp
    have hall : List.Forall₂ (fun v p => v ∈ p.continuing) (us ++ [v])
        (m.parameters.take (us ++ [v]).length) := by
      rw [hlength]
      have hgoeson := Parameter.mem_continuing_iff.mpr ⟨c, hc, hdirect⟩
      exact forall₂_take_concat_iff.mpr ⟨hcontinuing, p, hget, hgoeson⟩
    refine ⟨?_, hall⟩
    -- a parameter that is left would be pending
    have hlt := lt_size_of_pending hp
    have hnone : m.parameters[(us ++ [v]).length]? = none := by
      rw [Option.eq_none_iff_forall_ne_some]
      intro next hnext
      have hpending := (pending_iff_continuing.mpr ⟨hnext, hall⟩).2
      rw [hcomplete] at hpending
      cases hpending
    have hsize : m.size ≤ (us ++ [v]).length := List.getElem?_eq_none_iff.mp hnone
    dsimp only at hlt
    omega

/-! ## Depths that are reached -/

/-- Some `k` selections leave a parameter pending. -/
def Reaches (m : Menu) (k : Nat) : Prop :=
  k < m.size ∧ ∀ p ∈ m.parameters.take k, p.continuing ≠ []

/-- A selection that leaves a parameter pending bears witness to its depth. -/
theorem reaches_of_pending {p : Progress} (hcheck : m.checkSelections p.selections = .ok ())
    (hp : m.pending p = some parameter) : m.Reaches p.selections.length := by
  have hvs := (pending_iff_continuing.mp ⟨hcheck, hp⟩).2
  refine ⟨lt_size_of_pending hp, ?_⟩
  intro q hq
  obtain ⟨v, -, hv⟩ := exists_of_forall₂_of_mem hvs hq
  exact List.ne_nil_of_mem hv

/-- At a depth that is reached there is such a selection. Its values can be asked for more than
that it goes on after them. -/
theorem Reaches.exists_pending {k : Nat} {R : String → Parameter → Prop} (hk : m.Reaches k)
    (h : ∀ p ∈ m.parameters.take k, ∃ v, v ∈ p.continuing ∧ R v p) :
    ∃ vs parameter, vs.length = k ∧ m.checkSelections vs = .ok () ∧
      m.pending { selections := vs } = some parameter ∧
      List.Forall₂ (fun v p => v ∈ p.continuing ∧ R v p) vs (m.parameters.take vs.length) := by
  obtain ⟨vs, hvs⟩ := exists_forall₂ h
  have hlength : vs.length = k := by
    rw [hvs.length_eq, List.length_take]
    exact Nat.min_eq_left hk.1.le
  subst hlength
  have hget := List.getElem?_eq_getElem hk.1
  obtain ⟨hcheck, hp⟩ := pending_iff_continuing.mpr ⟨hget, hvs.imp fun _ _ h => h.1⟩
  exact ⟨vs, _, rfl, hcheck, hp, hvs⟩

/-- At a depth that is reached, clicks lead to an incomplete selection. -/
theorem Reaches.exists_reachable {k : Nat} (hm : m.Numbered) (hk : m.Reaches k) :
    ∃ p parameter, Reachable m p ∧ p.selections.length = k ∧ m.pending p = some parameter := by
  have hgoeson : ∀ p ∈ m.parameters.take k, ∃ v, v ∈ p.continuing ∧ True := by
    intro p hp
    obtain ⟨v, hv⟩ := List.exists_mem_of_ne_nil _ (hk.2 p hp)
    exact ⟨v, hv, trivial⟩
  obtain ⟨vs, parameter, hlength, hcheck, hp, -⟩ := hk.exists_pending hgoeson
  obtain ⟨p, hr, rfl, -⟩ := reachable_of_checkSelections hm "" hcheck
  -- the lock makes no difference to what is pending
  exact ⟨p, parameter, hr, hlength, hp⟩

end Menu

/-! ## What the search follows -/

/-- Values that the search follows are explored one after another. -/
theorem Validation.explored_of_followed {m : Menu} {vs : List String}
    (h : List.Forall₂ (fun v p => p.Followed v) vs (m.parameters.take vs.length)) :
    Explored m { selections := vs } := by
  induction vs using List.reverseRecOn with
  | nil => exact .root
  | append_singleton vs v ih =>
    rw [List.length_append, List.length_singleton, forall₂_take_concat_iff] at h
    obtain ⟨hvs, p, hget, hv, c, hc, rfl⟩ := h
    obtain ⟨-, hp⟩ := Menu.pending_iff_continuing.mpr ⟨hget, hvs.imp fun _ _ h => h.1⟩
    exact .step (ih hvs) hp hc

end RollMenu
