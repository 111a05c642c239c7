import RollMenu.Proofs.OpenPaths

/-!
# How deep paths get, and what they offer twice

A configuration is meant to be accepted only if no path needs too many selections and no
placeholder on a path offers a value twice. The search checks both at every selection
that it looks at, and since it stops at the first defect, what it has seen of an accepted
configuration is sound.

It has not seen everything. Where all corner cases of a placeholder are direct choices
and a number between the greatest and the least one is not, clicks lead to placeholders
behind it and the search does not. The main statement says that this is the only gap:
an accepted configuration is sound exactly if it is at the depths behind such a
placeholder.
-/

namespace RollMenu

/-- If the selection can go on at all, it goes on after a corner case. -/
def Parameter.KeepsGoing (p : Parameter) : Prop :=
  p.continuing ≠ [] → ∃ c ∈ Validation.corners p.choices, c.value ∈ p.continuing

instance (p : Parameter) : Decidable p.KeepsGoing :=
  inferInstanceAs (Decidable (p.continuing ≠ [] →
    ∃ c ∈ Validation.corners p.choices, c.value ∈ p.continuing))

namespace Menu

variable {m : Menu} {k : Nat}

/-- After `k` selections another one is allowed, and its placeholder offers no value twice. -/
def SoundAt (m : Menu) (k : Nat) : Prop :=
  k < m.limits.maxPlaceholders.toNat ∧
    ∀ parameter, m.parameters[k]? = some parameter →
      (parameter.choices.map Choice.value).Nodup

/-- **All reachable selections that are incomplete are sound exactly if all depths are.** -/
theorem sound_reachable_iff (hm : m.Numbered) :
    (∀ p parameter, Reachable m p → m.pending p = some parameter →
      p.selections.length < m.limits.maxPlaceholders.toNat ∧
        (parameter.choices.map Choice.value).Nodup) ↔
      ∀ k, m.Reaches k → m.SoundAt k := by
  constructor
  · intro h k hk
    obtain ⟨p, parameter, hr, rfl, hp⟩ := hk.exists_reachable hm
    obtain ⟨hlt, hnodup⟩ := h p parameter hr hp
    refine ⟨hlt, ?_⟩
    intro other hother
    rw [(pending_eq_some_iff.mp hp).2] at hother
    obtain rfl := Option.some.inj hother
    exact hnodup
  · intro h p parameter hr hp
    obtain ⟨hlt, hnodup⟩ := h _ (reaches_of_pending (checkSelections_reachable hr) hp)
    exact ⟨hlt, hnodup parameter (pending_eq_some_iff.mp hp).2⟩

end Menu

namespace Validation

variable {s : Search} {p : Progress} {parameter : Parameter} {k : Nat}

theorem Search.soundAt_of_defect_eq_none (hp : s.menu.pending p = some parameter)
    (h : s.defect p parameter = none) : s.menu.SoundAt p.selections.length := by
  obtain ⟨hdepth, hnodup, -⟩ := defect_eq_none_iff.mp h
  refine ⟨hdepth, ?_⟩
  intro other hother
  rw [(Menu.pending_eq_some_iff.mp hp).2] at hother
  obtain rfl := Option.some.inj hother
  exact hnodup

/-- **Where every placeholder goes on after a corner case, the search has seen the depth.** -/
theorem soundAt_of_keepsGoing (hm : s.menu.Numbered) (h : (s.visit s.menu.size {}).verdict = .ok ())
    (hk : s.menu.Reaches k) (hkeeps : ∀ p ∈ s.menu.parameters.take k, p.KeepsGoing) :
    s.menu.SoundAt k := by
  have hcorner : ∀ p ∈ s.menu.parameters.take k,
      ∃ v, v ∈ p.continuing ∧ ∃ c ∈ corners p.choices, c.value = v := by
    intro p hp
    obtain ⟨c, hc, hgoeson⟩ := hkeeps p hp (hk.2 p hp)
    exact ⟨c.value, hgoeson, c, hc, rfl⟩
  obtain ⟨vs, parameter, rfl, -, hp, hvs⟩ := hk.exists_pending hcorner
  exact Search.soundAt_of_defect_eq_none hp
    (Search.defect_of_explored hm h (explored_of_followed hvs) hp)

/--
**When an accepted configuration is sound.** Every incomplete selection that clicks lead to
leaves room for another one, and the placeholder that it asks for offers no value twice,
exactly if that holds at those depths before which some placeholder goes on after a number
but after none of its corner cases.
-/
theorem sound_iff_of_validate {limits : Limits} {config : Config}
    {complaint : String → Option String} (h : validate limits config complaint = .ok ()) :
    ∃ flow, Flow.ofConfig limits config = .ok flow ∧
      ((∀ p parameter, Reachable flow.menu p → flow.menu.pending p = some parameter →
          p.selections.length < limits.maxPlaceholders.toNat ∧
            (parameter.choices.map Choice.value).Nodup) ↔
        ∀ k, flow.menu.Reaches k → (∃ p ∈ flow.menu.parameters.take k, ¬ p.KeepsGoing) →
          flow.menu.SoundAt k) := by
  obtain ⟨menu, hmenu, hvisit⟩ := visit_of_validate h
  have hcompiled := Menu.compiledFrom_of_compile hmenu
  have hreachable := Menu.sound_reachable_iff hcompiled.numbered
  rw [hcompiled.limits_eq] at hreachable
  refine ⟨{ config, menu }, by rw [Flow.ofConfig, hmenu]; rfl, Iff.trans hreachable ?_⟩
  constructor
  · intro hall k hk _
    exact hall k hk
  · intro hrest k hk
    by_cases hkeeps : ∀ p ∈ menu.parameters.take k, p.KeepsGoing
    · exact soundAt_of_keepsGoing (s := searchOf menu config complaint) hcompiled.numbered hvisit
        hk hkeeps
    · exact hrest k hk (by simpa using hkeeps)

/-- Both extremes of the first placeholder are direct choices. What lies behind its middle is
never searched and is sound all the same. -/
theorem sound_iff_of_validate_direct_extremes :
    ∃ flow, Flow.ofConfig { maxPlaceholders := 2 } { template := "{A:1@!One/2/3@!Three}+{B:x/y}" } =
        .ok flow ∧
      ∀ p parameter, Reachable flow.menu p → flow.menu.pending p = some parameter →
        p.selections.length < 2 ∧ (parameter.choices.map Choice.value).Nodup := by
  obtain ⟨flow, hflow, hiff⟩ := sound_iff_of_validate (by cbv :
    validate { maxPlaceholders := 2 } { template := "{A:1@!One/2/3@!Three}+{B:x/y}" }
      (fun _ => none) = .ok ())
  obtain ⟨other, hother, hvalues⟩ := exists_of_map_ok (by cbv :
    (Flow.ofConfig { maxPlaceholders := 2 } { template := "{A:1@!One/2/3@!Three}+{B:x/y}" }).map
      (fun flow => (flow.menu.limits.maxPlaceholders.toNat,
        flow.menu.parameters.map fun p => p.choices.map Choice.value)) =
          .ok (2, [["1", "2", "3"], ["x", "y"]]))
  obtain rfl := Except.ok.inj (hother.symm.trans hflow)
  obtain ⟨hlimit, hvalues⟩ := Prod.mk.inj hvalues
  refine ⟨other, hother, hiff.mpr ?_⟩
  intro k hk _
  have hsize : other.menu.size = 2 := by
    rw [Menu.size, ← List.length_map, hvalues]
    rfl
  refine ⟨by rw [hlimit, ← hsize]; exact hk.1, ?_⟩
  intro parameter hget
  have hmem : parameter.choices.map Choice.value ∈ [["1", "2", "3"], ["x", "y"]] := by
    rw [← hvalues]
    exact List.mem_map_of_mem (List.mem_of_getElem? hget)
  rcases List.mem_pair.mp hmem with h | h <;> rw [h] <;> decide

/-- With one value twice behind the middle the configuration is accepted all the same. -/
theorem repeated_value_of_validate_direct_extremes :
    validate {} { template := "{A:1@!One/2/3@!Three}+{B:x/x}" } (fun _ => none) = .ok () ∧
      ∃ flow, Flow.ofConfig {} { template := "{A:1@!One/2/3@!Three}+{B:x/x}" } = .ok flow ∧
        ∃ p parameter, Reachable flow.menu p ∧ flow.menu.pending p = some parameter ∧
          ¬ (parameter.choices.map Choice.value).Nodup := by
  refine ⟨by cbv, ?_⟩
  obtain ⟨flow, hflow, hpending⟩ := exists_of_map_ok (by cbv :
    (Flow.ofConfig {} { template := "{A:1@!One/2/3@!Three}+{B:x/x}" }).map
      (fun flow => (flow.menu.pending (flow.click {} "id2" "alice").progress).map
        fun parameter => parameter.choices.map Choice.value) = .ok (some ["x", "x"]))
  obtain ⟨parameter, hp, hvalues⟩ := Option.map_eq_some_iff.mp hpending
  refine ⟨flow, hflow, (flow.click {} "id2" "alice").progress, parameter,
    .tail .init _ _ _, hp, ?_⟩
  rw [hvalues]
  decide

end Validation

end RollMenu
