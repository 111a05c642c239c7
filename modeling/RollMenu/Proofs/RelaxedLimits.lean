import Mathlib
import RollMenu.Proofs.ButtonLength

/-!
# Acceptance under relaxed limits

An operator may raise the bound on the length of ids or on the number of paths, take a target
out of a configuration, or put in an engine that takes more expressions. What was accepted
before stays accepted.

Neither bound has a part in reading the template, so both times the same menu is searched but
for its limits (`Menu.under`). Both searches visit the same selections. At each of them the ids
have not got longer while the bound has not got smaller, and the engine is asked about the same
expressions.
-/

namespace RollMenu

/-- The same limits, but ids may be longer and there may be more paths. -/
structure Limits.RelaxedTo (limits limits' : Limits) : Prop where
  same : limits' = { limits with maxIdLength := limits'.maxIdLength, maxPaths := limits'.maxPaths }
  maxIdLength_le : limits.maxIdLength ≤ limits'.maxIdLength
  maxPaths_le : limits.maxPaths ≤ limits'.maxPaths

/-- The same configuration, but it may have no target. -/
structure Config.RelaxedTo (config config' : Config) : Prop where
  same : config' = { config with answerTarget := config'.answerTarget }
  target : config'.answerTarget = config.answerTarget ∨ config'.answerTarget = none

/-! ## The menu -/

/-- What a placeholder offers has nothing to do with the bounds that are relaxed. -/
theorem Spec.choices_of_relaxedTo {limits limits' : Limits} (h : limits.RelaxedTo limits')
    (expression : String) (spec : Option String) :
    Spec.choices Spec.builtin limits' expression spec =
      Spec.choices Spec.builtin limits expression spec := by
  have hoffers : ∀ format ∈ Spec.builtin, ∀ text,
      format.offers limits' text = format.offers limits text := by
    intro format hformat text
    rw [h.same]
    rcases List.mem_pair.mp hformat with rfl | rfl <;> rfl
  have hread : (spec.bind fun text => (Spec.builtin.find? (·.accepts text)).map
        fun format => format.offers limits' text) =
      spec.bind fun text => (Spec.builtin.find? (·.accepts text)).map
        fun format => format.offers limits text := by
    refine Option.bind_congr fun text _ => Option.map_congr fun format hfind => ?_
    exact hoffers format (List.mem_of_find?_eq_some hfind) text
  have hdefault : Spec.defaultOffers limits' = Spec.defaultOffers limits := by
    rw [h.same]
    rfl
  rw [Spec.choices, Spec.choices, hread, hdefault]

namespace Menu

/-- The menu under other limits. -/
def under (m : Menu) (limits : Limits) : Menu := { m with limits }

variable {m : Menu} {limits limits' : Limits} {p : Progress}

theorem pending_under : (m.under limits).pending p = m.pending p := rfl

theorem rollRequest_under (format : AnswerFormat) :
    (m.under limits).rollRequest p format = m.rollRequest p format := rfl

/-- **The template is expanded in the same way.** -/
theorem compile_of_relaxedTo (h : limits.RelaxedTo limits') (source : String) :
    compile limits' source = (compile limits source).map fun m => m.under limits' := by
  have hexpand : ∀ count, expand ([] ++ Spec.builtin) limits' count =
      expand ([] ++ Spec.builtin) limits count := by
    intro count
    funext p
    exact congrArg (· >>= _) (Spec.choices_of_relaxedTo h p.expression p.spec)
  unfold compile compileWith
  cases Template.parse source with
  | error fault => rfl
  | ok t =>
    dsimp only [ofTemplate]
    rw [hexpand]
    cases t.placeholders.mapM (expand ([] ++ Spec.builtin) limits t.slots.length) with
    | error e => rfl
    | ok parameters => rfl

/-- Without a target ids are shorter. -/
theorem length_encode_wireId_under (hcommand : limits'.commandName = m.limits.commandName)
    {target target' : Option UInt64} (htarget : target' = target ∨ target' = none)
    (selections : List String) (click : String) :
    ((m.under limits').wireId selections target' click).encode.length ≤
      (m.wireId selections target click).encode.length := by
  rw [WireId.length_encode, WireId.length_encode]
  rcases htarget with rfl | rfl
  · rw [wireId, wireId, under, hcommand]
  · have hshort : (WireId.targetField none).length = 0 := rfl
    simp only [wireId, under, WireId.lengthOf, hcommand, hshort]
    omega

/-- Every button has one at least as long in place of it. -/
theorem exists_button_of_under (hcommand : limits'.commandName = m.limits.commandName)
    {target target' : Option UInt64} (htarget : target' = target ∨ target' = none) {b : Button}
    (hb : b ∈ (m.under limits').buttons p target') :
    ∃ b' ∈ m.buttons p target, b.id.length ≤ b'.id.length := by
  obtain ⟨parameter, hp, click, hclick, hid⟩ := exists_click_of_mem_buttons hb
  rw [pending_under] at hp
  have hmem : (m.wireId p.selections target click).encode ∈ (m.buttons p target).map Button.id := by
    rw [ids_buttons hp]
    exact List.mem_map_of_mem hclick
  obtain ⟨b', hb', hid'⟩ := List.mem_map.mp hmem
  refine ⟨b', hb', ?_⟩
  rw [hid, hid']
  exact length_encode_wireId_under hcommand htarget p.selections click

end Menu

/-! ## The search -/

namespace Validation

/-- A search of the same menu under relaxed conditions. -/
structure Search.RelaxedTo (s s' : Search) : Prop where
  menu : s'.menu = s.menu.under s'.menu.limits
  limits : s.menu.limits.RelaxedTo s'.menu.limits
  target : s'.target = s.target ∨ s'.target = none
  format : s'.format = s.format
  /-- The engine takes whatever it took before. -/
  complaint : ∀ source, s.complaint source = none → s'.complaint source = none

namespace Search.RelaxedTo

variable {s s' : Search} {p : Progress} {parameter : Parameter}

theorem pending_eq (h : s.RelaxedTo s') (p : Progress) : s'.menu.pending p = s.menu.pending p := by
  rw [h.menu, Menu.pending_under]

/-- A selection without a defect has none under relaxed conditions. -/
theorem defect_eq_none (h : s.RelaxedTo s') (hfine : s.defect p parameter = none) :
    s'.defect p parameter = none := by
  obtain ⟨hdepth, hnodup, hlength⟩ := defect_eq_none_iff.mp hfine
  have hsame := h.limits.same
  have hcommand : s'.menu.limits.commandName = s.menu.limits.commandName := by rw [hsame]
  have hmax : s'.maxPlaceholders = s.maxPlaceholders := by
    rw [maxPlaceholders, maxPlaceholders, hsame]
  refine defect_eq_none_iff.mpr ⟨by rwa [hmax], hnodup, ?_⟩
  intro b hb
  rw [h.menu] at hb
  obtain ⟨b', hb', hle⟩ := Menu.exists_button_of_under hcommand h.target hb
  calc b.id.length
      ≤ b'.id.length := hle
    _ ≤ s.menu.limits.maxIdLength.toNat := hlength b' hb'
    _ ≤ s'.menu.limits.maxIdLength.toNat := UInt64.le_iff_toNat_le.mp h.limits.maxIdLength_le

/-- The engine is asked about the same expression, and takes it again. -/
theorem askEngine_ok (h : s.RelaxedTo s') (hok : (s.askEngine p).verdict = .ok ()) :
    (s'.askEngine p).verdict = .ok () := by
  have hroll : s'.menu.rollRequest p s'.format = s.menu.rollRequest p s.format := by
    rw [h.menu, h.format, Menu.rollRequest_under]
  unfold askEngine at hok ⊢
  rw [hroll]
  cases hask : s.menu.rollRequest p s.format with
  | none => rfl
  | some roll =>
    rw [hask] at hok
    cases hcomplaint : s.complaint roll.expression with
    | none => simp only [h.complaint _ hcomplaint]
    | some message => simp [hcomplaint] at hok

/-- What is complete is accepted as before, however much is left. -/
theorem visit_ok_of_complete (h : s.RelaxedTo s') {left : Nat} (hp : s.menu.pending p = none)
    (hok : (s.visit left p).verdict = .ok ()) : (s'.visit left p).verdict = .ok () := by
  rw [visit_of_complete hp] at hok
  rw [visit_of_complete ((h.pending_eq p).trans hp)]
  exact h.askEngine_ok hok

/-- **A search that accepts accepts under relaxed conditions.** By induction on the placeholders
that are left; at each selection both searches follow the same corner cases. -/
theorem visit_ok (h : s.RelaxedTo s') (hm : s.menu.Numbered) {left : Nat}
    (hok : (s.visit left p).verdict = .ok ()) : (s'.visit left p).verdict = .ok () := by
  have hm' : s'.menu.Numbered := by
    rw [h.menu]
    exact hm
  induction left generalizing p with
  | zero =>
    cases hp : s.menu.pending p with
    | none => exact h.visit_ok_of_complete hp hok
    | some parameter =>
      cases hdefect : s.defect p parameter with
      | some e =>
        rw [visit_of_defect hp hdefect] at hok
        cases hok
      | none =>
        -- with no placeholder left to count, a search accepts what is fine
        rw [visit_zero_of_fine ((h.pending_eq p).trans hp) (h.defect_eq_none hdefect)]
        rfl
  | succ left ih =>
    cases hp : s.menu.pending p with
    | none => exact h.visit_ok_of_complete hp hok
    | some parameter =>
      obtain ⟨hfine, hbranches⟩ := visit_step hm hok hp
      rw [visit_of_fine hm' ((h.pending_eq p).trans hp) (h.defect_eq_none hfine),
        Report.verdict_inOrder, firstFailure_eq_ok_iff]
      intro c hc
      exact ih (hbranches c hc)

end Search.RelaxedTo

/-! ## Whole configurations -/

variable {limits limits' : Limits} {config config' : Config}
  {complaint complaint' : String → Option String}

theorem exceedsDepth_under {menu : Menu}
    (h : (menu.under limits).limits.maxPlaceholders = menu.limits.maxPlaceholders) :
    exceedsDepth (menu.under limits) = exceedsDepth menu := by
  rw [exceedsDepth, exceedsDepth, h]
  rfl

theorem pathCount_under {menu : Menu}
    (h : (menu.under limits).limits.maxPlaceholders = menu.limits.maxPlaceholders) :
    pathCount (menu.under limits) = pathCount menu := by
  rw [pathCount, pathCount, h]
  rfl

/-- What passes up front passes under relaxed limits. -/
theorem upFront_of_relaxedTo (hlimits : limits.RelaxedTo limits')
    (hconfig : config.RelaxedTo config') {menu : Menu} (h : upFront limits config = .ok menu) :
    upFront limits' config' = .ok (menu.under limits') := by
  obtain ⟨hreserved, hmenu, hne, hdepth, hpaths⟩ := upFront_eq_ok_iff.mp h
  have htemplate : config'.template = config.template := by rw [hconfig.same]
  have hmax : limits'.maxPlaceholders = menu.limits.maxPlaceholders := by
    rw [hlimits.same, (Menu.compiledFrom_of_compile hmenu).limits_eq]
  refine upFront_eq_ok_iff.mpr ⟨?_, ?_, hne, ?_, ?_⟩
  · rw [htemplate, hreserved]
  · rw [htemplate, Menu.compile_of_relaxedTo hlimits, hmenu]
    rfl
  · rw [exceedsDepth_under hmax, hdepth]
  · rw [(Menu.compiledFrom_of_compile hmenu).limits_eq] at hpaths
    calc pathCount (menu.under limits')
        = pathCount menu := pathCount_under hmax
      _ ≤ limits.maxPaths.toNat := hpaths
      _ ≤ limits'.maxPaths.toNat := UInt64.le_iff_toNat_le.mp hlimits.maxPaths_le

/--
**Acceptance is monotone.** A configuration that is accepted stays accepted when ids may be longer
or there may be more paths, when it loses its target, and when the engine takes more expressions.
-/
theorem validate_of_relaxedTo (hlimits : limits.RelaxedTo limits')
    (hconfig : config.RelaxedTo config')
    (hcomplaint : ∀ source, complaint source = none → complaint' source = none)
    (h : validate limits config complaint = .ok ()) :
    validate limits' config' complaint' = .ok () := by
  obtain ⟨menu, hupFront, hvisit⟩ := validate_eq_ok_iff.mp h
  have hcompiled := Menu.compiledFrom_of_compile (upFront_eq_ok_iff.mp hupFront).2.1
  have hsearch : (searchOf menu config complaint).RelaxedTo
      (searchOf (menu.under limits') config' complaint') := {
    menu := rfl
    limits := hcompiled.limits_eq.symm ▸ hlimits
    target := hconfig.target
    format := by
      have hformat : config'.answerFormat = config.answerFormat := by rw [hconfig.same]
      exact hformat
    complaint := hcomplaint }
  exact validate_eq_ok_iff.mpr ⟨_, upFront_of_relaxedTo hlimits hconfig hupFront,
    hsearch.visit_ok hcompiled.numbered hvisit⟩

/-- The ids of this configuration just fit, its paths are as many as allowed, and the engine
refuses one of the expressions that it is not asked about. -/
theorem validate_of_relaxedTo_without_target :
    let config : Config := { template := "{A:1/2}d{B:6/8}", answerTarget := some 42 }
    let complaint := fun source => if source = "3d6" then some "too many" else none
    let limits : Limits := { maxIdLength := 27, maxPaths := 4 }
    validate limits config complaint = .ok () ∧
      limits.RelaxedTo { limits with maxIdLength := 30 } ∧
      config.RelaxedTo { config with answerTarget := none } ∧
      validate { limits with maxIdLength := 30 } { config with answerTarget := none }
        (fun _ => none) = .ok () := by
  intro config complaint limits
  have hvalid : validate limits config complaint = .ok () := by cbv
  have hlimits : limits.RelaxedTo { limits with maxIdLength := 30 } :=
    ⟨rfl, by decide, by decide⟩
  have hconfig : config.RelaxedTo { config with answerTarget := none } := ⟨rfl, .inr rfl⟩
  exact ⟨hvalid, hlimits, hconfig,
    validate_of_relaxedTo hlimits hconfig (fun _ _ => rfl) hvalid⟩

end Validation

end RollMenu
