import Mathlib
import RollMenu.Proofs.ButtonLength
import RollMenu.Proofs.PlainIntegers
import RollMenu.Proofs.VisitedSelections

/-!
# Menus of integers

Where no placeholder lists its values, all of them are integers: those of a range, or those up
to the default count. Then the check of the button ids is exact. It is not obvious from the
search, which follows no more than the greatest integer, the least one and zero.

That it misses nothing is a matter of notation. Of the integers between two others none is
written in more characters than both of them, so the ends of a range hold a longest value, and
the ids behind it have been measured. That it complains about nothing else is a matter of what
such a template can suffer from: all its placeholders offer something and no value twice, and
the depth is checked beforehand.
-/

namespace RollMenu

namespace Decimal

theorem ofInt_eq_repr (n : Int) : ofInt n = n.repr := by
  cases n <;> rfl

theorem ofInt_injective : Function.Injective ofInt := by
  intro m n h
  rw [ofInt_eq_repr, ofInt_eq_repr] at h
  exact Int.repr_injective h

/-- **An integer between two others is not written in more characters than both of them.** -/
theorem length_ofInt_le {low n high : Int} (hlow : low ≤ n) (hhigh : n ≤ high) :
    (ofInt n).length ≤ (ofInt low).length ∨ (ofInt n).length ≤ (ofInt high).length := by
  have hrepr : ∀ {k l : Nat}, k ≤ l → k.repr.length ≤ l.repr.length := by
    intro k l hkl
    rw [← String.length_toList, ← String.length_toList, Nat.toList_repr, Nat.toList_repr]
    exact length_toDigits_le hkl
  cases n with
  | ofNat n =>
    -- the greater one is a natural number too, and its digits are no fewer
    obtain ⟨high, rfl⟩ := Int.eq_ofNat_of_zero_le (Int.le_trans (Int.natCast_nonneg n) hhigh)
    exact .inr (hrepr (Int.ofNat_le.mp hhigh))
  | negSucc n =>
    -- below zero the lesser one has the greater number behind its sign
    obtain ⟨low, rfl⟩ := Int.eq_negSucc_of_lt_zero
      (Int.lt_of_le_of_lt hlow (Int.negSucc_lt_zero n))
    have hle : n + 1 ≤ low + 1 := by omega
    rw [ofInt, ofInt, String.length_append, String.length_append]
    exact .inl (Nat.add_le_add_left (hrepr hle) _)

theorem fits_of_integer? {cs : List Char} {n : Int} (h : integer? cs = some n) : Fits n := by
  have hchecked : ∀ {i : Int}, checked i = some n → Fits n := by
    intro i hi
    obtain ⟨rfl, hfits⟩ := eq_of_checked hi
    exact hfits
  unfold integer? at h
  split at h
  all_goals
    obtain ⟨k, -, hk⟩ := Option.bind_eq_some_iff.mp h
    exact hchecked hk

end Decimal

/-! ## What is offered -/

namespace Range

theorem fits_of_bounds? {text : String} {low high : Int} (h : bounds? text = some (low, high)) :
    Decimal.Fits low := by
  obtain ⟨parts, -, h⟩ := Option.bind_eq_some_iff.mp h
  obtain ⟨low', hlow, h⟩ := Option.bind_eq_some_iff.mp h
  obtain ⟨high', -, h⟩ := Option.bind_eq_some_iff.mp h
  obtain ⟨rfl, rfl⟩ := Prod.mk.inj (Option.some.inj h)
  exact Decimal.fits_of_integer? hlow

theorem reach_of_le {cap : UInt64} (h : cap.toNat ≤ 2 ^ 63) :
    reach cap = ((cap.toNat - 1 : Nat) : Int) := by
  have hbound : Decimal.wordBound = 2 ^ 64 := rfl
  unfold reach
  rw [hbound]
  apply Int.bmod_eq_of_le <;> omega

/-- A cap that is a positive signed word does not count downwards. -/
theorem reach_nonneg {cap : UInt64} (h : cap.toNat ≤ 2 ^ 63) : 0 ≤ reach cap := by
  rw [reach_of_le h]
  exact Int.natCast_nonneg _

/-- So a range has at least its lower bound. -/
theorem integers_ne_nil {cap : UInt64} {low high : Int} (hcap : cap.toNat ≤ 2 ^ 63)
    (hlow : Decimal.Fits low) : integers cap low high ≠ [] := by
  have hreach := reach_nonneg hcap
  have hlast : low ≤ last cap low high := by
    obtain ⟨-, hgreatest⟩ := hlow
    unfold last Decimal.saturated
    omega
  intro hnil
  have hlength := congrArg List.length hnil
  rw [integers, List.length_map, List.length_range, List.length_nil] at hlength
  omega

theorem nodup_integers (cap : UInt64) (low high : Int) : (integers cap low high).Nodup := by
  refine List.Nodup.map ?_ List.nodup_range
  intro i j h
  exact Int.ofNat.inj (Int.add_left_cancel h)

end Range

/-- A template whose specs are no lists, under limits that leave every placeholder something to
offer. -/
structure Template.IntegersOnly (t : Template) (limits : Limits) : Prop where
  spec : ∀ p ∈ t.placeholders, ∀ text, p.spec = some text → Listing.separator ∉ text.toList
  /-- Past the signed words a cap counts downwards, and ranges may be empty. -/
  rangeCap_le : limits.rangeCap.toNat ≤ 2 ^ 63
  one_le_defaultChoices : 1 ≤ limits.defaultChoices.toNat

namespace Spec

variable {limits : Limits} {spec : Option String}

/-- The integers from 1 up to the default count. -/
def defaultIntegers (limits : Limits) : List Int :=
  (List.range limits.defaultChoices.toNat).map fun (i : Nat) => (i : Int) + 1

theorem number_defaultOffers (limits : Limits) :
    Choice.number (defaultOffers limits) = Choice.ofIntegers (defaultIntegers limits) := by
  rw [Choice.ofIntegers, defaultIntegers, List.map_map]
  rfl

theorem defaultIntegers_ne_nil (h : 1 ≤ limits.defaultChoices.toNat) :
    defaultIntegers limits ≠ [] := by
  simp only [defaultIntegers, ne_eq, List.map_eq_nil_iff, List.range_eq_nil]
  omega

theorem nodup_defaultIntegers (limits : Limits) : (defaultIntegers limits).Nodup := by
  refine List.Nodup.map ?_ List.nodup_range
  intro i j h
  exact Int.ofNat.inj (add_right_cancel h)

/-- A spec that is neither a range nor a list counts for nothing. -/
theorem choices_of_unread {expression text : String} (hrange : Range.bounds? text = none)
    (hlist : Listing.separator ∉ text.toList) :
    choices builtin limits expression (some text) = .ok (Choice.number (defaultOffers limits)) := by
  have hfind : builtin.find? (·.accepts text) = none := by
    simpa [builtin, Range.format, Listing.format, hrange] using hlist
  simp only [choices, Option.bind_some, hfind, Option.map_none]

/-- **A spec that is no list offers integers**, at least one of them and none of them twice. -/
theorem exists_integers (expression : String)
    (hspec : ∀ text, spec = some text → Listing.separator ∉ text.toList)
    (hcap : limits.rangeCap.toNat ≤ 2 ^ 63) (hdefault : 1 ≤ limits.defaultChoices.toNat) :
    ∃ ns : List Int, ns ≠ [] ∧ ns.Nodup ∧
      choices builtin limits expression spec = .ok (Choice.ofIntegers ns) := by
  have hne := defaultIntegers_ne_nil hdefault
  have hnodup := nodup_defaultIntegers limits
  cases spec with
  | none => exact ⟨_, hne, hnodup, congrArg Except.ok (number_defaultOffers limits)⟩
  | some text =>
    cases hbounds : Range.bounds? text with
    | none =>
      refine ⟨_, hne, hnodup, ?_⟩
      rw [choices_of_unread hbounds (hspec text rfl), number_defaultOffers]
    | some bounds =>
      obtain ⟨low, high⟩ := bounds
      exact ⟨_, Range.integers_ne_nil hcap (Range.fits_of_bounds? hbounds),
        Range.nodup_integers _ low high, choices_of_range hbounds⟩

end Spec

namespace Menu

variable {limits : Limits} {source : String} {t : Template}

/-- Such a placeholder is expanded into integers in plain notation, none of them twice. -/
theorem expand_of_integersOnly (h : t.IntegersOnly limits) {p : Placeholder}
    (hp : p ∈ t.placeholders) (count : Nat) :
    ∃ parameter, expand Spec.builtin limits count p = .ok parameter ∧
      parameter.isPlain = true ∧ (parameter.choices.map Choice.value).Nodup := by
  obtain ⟨ns, hne, hnodup, hchoices⟩ := Spec.exists_integers p.expression (h.spec p hp)
    h.rangeCap_le h.one_le_defaultChoices
  have hexpand : expand Spec.builtin limits count p =
      .ok { placeholder := p, choices := link p.index count (Choice.ofIntegers ns) } := by
    unfold expand
    rw [hchoices]
    refine if_neg ?_
    simpa [Choice.ofIntegers, Choice.number] using hne
  refine ⟨_, hexpand, Parameter.isPlain_of_integers rfl, ?_⟩
  rw [Choice.ofIntegers, values_link_number, List.map_map]
  exact hnodup.map Decimal.ofInt_injective

/-- A template compiles if all its placeholders can be expanded. -/
theorem exists_compile (ht : Template.parse source = .ok t)
    (h : ∀ p ∈ t.placeholders,
      ∃ parameter, expand Spec.builtin limits t.slots.length p = .ok parameter) :
    ∃ m, compile limits source = .ok m := by
  unfold compile compileWith
  rw [ht]
  dsimp only [ofTemplate]
  cases hparameters : t.placeholders.mapM (expand ([] ++ Spec.builtin) limits t.slots.length) with
  | ok parameters => exact ⟨_, rfl⟩
  | error e =>
    obtain ⟨p, hp, herror⟩ := exists_of_mapM_error hparameters
    obtain ⟨parameter, hparameter⟩ := h p hp
    cases hparameter.symm.trans herror

/-- **A template of integers compiles** to a menu of integers in plain notation. -/
theorem compile_of_integersOnly (ht : Template.parse source = .ok t) (h : t.IntegersOnly limits) :
    ∃ m, compile limits source = .ok m ∧ m.size = t.placeholders.length ∧
      ∀ p ∈ m.parameters, p.isPlain = true ∧ (p.choices.map Choice.value).Nodup := by
  have hexpand := fun p hp => expand_of_integersOnly h (p := p) hp t.slots.length
  obtain ⟨m, hm⟩ := exists_compile ht fun p hp => (hexpand p hp).imp fun _ h => h.1
  obtain ⟨hparse, -, hparameters⟩ := compile_ok hm
  obtain rfl := Except.ok.inj (ht.symm.trans hparse)
  refine ⟨m, hm, hparameters.length_eq.symm, ?_⟩
  intro parameter hmem
  obtain ⟨p, hp, hparameter⟩ := exists_of_forall₂_of_mem hparameters hmem
  obtain ⟨parameter', hparameter', hplain⟩ := hexpand p hp
  obtain rfl := Except.ok.inj (hparameter.symm.trans hparameter')
  exact hplain

end Menu

/-- **Integers in plain notation keep their longest value** at one of the two ends. -/
theorem Parameter.keepsLongest_of_isPlain {p : Parameter} (hp : p.isPlain = true) :
    p.KeepsLongest := by
  intro v hv
  obtain ⟨c, hc, -⟩ := mem_continuing_iff.mp hv
  obtain ⟨hmem, rfl⟩ := mem_of_choiceByValue hc
  cases hn : c.numeric? with
  | none =>
    -- what is no integer is a corner case itself
    have hspecial : Validation.isSpecial c = true := by simp [Validation.isSpecial, hn]
    exact ⟨c, Validation.mem_corners_of_special hmem hspecial, hv, Nat.le_refl _⟩
  | some n =>
    obtain ⟨low, c₁, high, c₂, hc₁, hlow, hc₂, hhigh, hle, hle'⟩ :=
      Validation.exists_corners_of_numeric hmem hn
    have hend : ∀ {k : Int}, p.Followed (Decimal.ofInt k) →
        (Decimal.ofInt n).length ≤ (Decimal.ofInt k).length →
        ∃ d ∈ Validation.corners p.choices,
          d.value ∈ p.continuing ∧ c.value.length ≤ d.value.length := by
      rintro k ⟨hgoeson, d, hd, hvalue⟩ hlength
      rw [← hvalue] at hgoeson hlength
      rw [(isPlain_iff.mp hp c hmem n hn).2]
      exact ⟨d, hd, hgoeson, hlength⟩
    rcases Decimal.length_ofInt_le hle hle' with hlength | hlength
    · exact hend (followed_of_isPlain hp hc₁ hlow) hlength
    · exact hend (followed_of_isPlain hp hc₂ hhigh) hlength

/-! ## The check -/

namespace Validation

theorem exceedsDepth_eq_false {menu : Menu}
    (h : menu.size ≤ menu.limits.maxPlaceholders.toNat) : exceedsDepth menu = false := by
  refine Bool.eq_false_iff.mpr fun hdeep => ?_
  exact Nat.not_lt.mpr h (exceedsDepth_iff.mp hdeep).1

namespace Search

variable {s : Search}

/-- A search without a defect at any explored selection accepts, if the engine takes every
expression. -/
theorem visit_ok_of_explored (hm : s.menu.Numbered) (left : Nat)
    (hcomplaint : ∀ source, s.complaint source = none)
    (hfine : ∀ p parameter, Explored s.menu p → s.menu.pending p = some parameter →
      s.defect p parameter = none) : (s.visit left {}).verdict = .ok () := by
  cases hverdict : (s.visit left {}).verdict with
  | ok => rfl
  | error e =>
    obtain ⟨q, hq, hfinding⟩ := exists_finding_of_visit hm .root hverdict
    cases hfinding with
    | defect hp hdefect =>
      rw [hfine q _ hq hp] at hdefect
      cases hdefect
    | invalid hroll hmessage =>
      rw [hcomplaint] at hmessage
      cases hmessage

/-- So it does if no id is too long, where the placeholders are as many as allowed and offer no
value twice. -/
theorem visit_ok_of_longestId_le (hm : s.menu.Numbered) (left : Nat)
    (hcomplaint : ∀ source, s.complaint source = none)
    (hdepth : s.menu.size ≤ s.menu.limits.maxPlaceholders.toNat)
    (hnodup : ∀ p ∈ s.menu.parameters, (p.choices.map Choice.value).Nodup)
    (hfits : ∀ k, s.menu.Reaches k →
      s.menu.longestId s.target k ≤ s.menu.limits.maxIdLength.toNat) :
    (s.visit left {}).verdict = .ok () := by
  refine visit_ok_of_explored hm left hcomplaint ?_
  intro p parameter hp hpending
  refine defect_eq_none_iff.mpr ⟨?_, hnodup _ (Menu.mem_of_pending hpending), ?_⟩
  · exact Nat.lt_of_lt_of_le (Menu.lt_size_of_pending hpending) hdepth
  · intro b hb
    obtain ⟨hk, hlength⟩ := Menu.length_id_le_longestId (checkSelections_of_explored hp) hb
    exact hlength.trans (hfits _ hk)

end Search

/--
**For templates of integers the check of the button ids is exact.** Where the placeholders are as
many as allowed and the paths too, a configuration is accepted if and only if no button is too
long, wherever clicks may lead.
-/
theorem validate_eq_ok_iff_of_integersOnly {limits : Limits} {config : Config} {t : Template}
    (ht : Template.parse config.template = .ok t) (hintegers : t.IntegersOnly limits)
    (hreserved : ∀ c ∈ config.template.toList, isReserved c = false)
    (hsome : 1 ≤ t.placeholders.length)
    (hmany : t.placeholders.length ≤ limits.maxPlaceholders.toNat) :
    ∃ flow, Flow.ofConfig limits config = .ok flow ∧
      (pathCount flow.menu ≤ limits.maxPaths.toNat →
        (validate limits config (fun _ => none) = .ok () ↔
          ∀ p, Reachable flow.menu p → ∀ b ∈ (flow.prompt p).buttons,
            b.id.length ≤ limits.maxIdLength.toNat)) := by
  obtain ⟨menu, hmenu, hsize, hplain⟩ := Menu.compile_of_integersOnly ht hintegers
  have hcompiled := Menu.compiledFrom_of_compile hmenu
  have hreachable := Menu.length_id_reachable_iff hcompiled config.answerTarget
    config.answerFormat limits.maxIdLength.toNat
  refine ⟨{ config, menu }, by rw [Flow.ofConfig, hmenu]; rfl, fun hpaths => ?_⟩
  refine Iff.trans ?_ hreachable.symm
  constructor
  · -- the search has measured the longest ids, for they are those behind the ends of the ranges
    intro h k hk
    obtain ⟨menu', hmenu', hvisit⟩ := visit_of_validate h
    obtain rfl := Except.ok.inj (hmenu.symm.trans hmenu')
    refine longestId_le_of_keepsLongest (s := searchOf menu config _) hcompiled hvisit hk ?_
    intro p hp
    exact Parameter.keepsLongest_of_isPlain (hplain p (List.mem_of_mem_take hp)).1
  · -- if ids are short enough nothing is left to complain about, neither up front nor in the search
    intro h
    have hdepth : menu.size ≤ menu.limits.maxPlaceholders.toNat := by
      rw [hsize, hcompiled.limits_eq]
      exact hmany
    have hupFront : upFront limits config = .ok menu := by
      refine upFront_eq_ok_iff.mpr ⟨firstReserved_eq_none_iff.mpr hreserved, hmenu, ?_,
        exceedsDepth_eq_false hdepth, ?_⟩
      · exact List.ne_nil_of_length_pos (Nat.lt_of_lt_of_eq hsome hsize.symm)
      · rw [hcompiled.limits_eq]
        exact hpaths
    refine validate_eq_ok_iff.mpr ⟨menu, hupFront, ?_⟩
    refine Search.visit_ok_of_longestId_le (s := searchOf menu config _) hcompiled.numbered _
      (fun _ => rfl) hdepth (fun p hp => (hplain p hp).2) ?_
    intro k hk
    have hlimits : (searchOf menu config fun _ => none).menu.limits = limits := hcompiled.limits_eq
    rw [hlimits]
    exact h k hk

/-- The lower bound has the longest value, and the clear button behind it just fits. -/
theorem validate_eq_ok_iff_of_integersOnly_negative :
    let limits : Limits := { maxIdLength := 27, defaultChoices := 2 }
    let config : Config := { template := "{A:-10<=>-8}+{B}" }
    ∃ t flow, Template.parse config.template = .ok t ∧ t.IntegersOnly limits ∧
      Flow.ofConfig limits config = .ok flow ∧ pathCount flow.menu ≤ limits.maxPaths.toNat ∧
      validate limits config (fun _ => none) = .ok () ∧
      ∀ p, Reachable flow.menu p → ∀ b ∈ (flow.prompt p).buttons, b.id.length ≤ 27 := by
  intro limits config
  obtain ⟨t, ht, hspecs⟩ := exists_of_map_ok (by cbv :
    (Template.parse config.template).map (fun t => t.placeholders.map Placeholder.spec) =
      .ok [some "-10<=>-8", none])
  have hsize : t.placeholders.length = 2 := by simpa using congrArg List.length hspecs
  have hintegers : t.IntegersOnly limits := by
    refine ⟨?_, by decide, by decide⟩
    intro p hp text htext
    have hmem : some text ∈ t.placeholders.map Placeholder.spec :=
      htext ▸ List.mem_map_of_mem hp
    rw [hspecs] at hmem
    obtain rfl : text = "-10<=>-8" := by simpa using hmem
    decide
  have hreserved : firstReserved 0 config.template.toList = none := by cbv
  obtain ⟨flow, hflow, hexact⟩ := validate_eq_ok_iff_of_integersOnly ht hintegers
    (firstReserved_eq_none_iff.mp hreserved) (by omega) (hsize.le.trans (by decide))
  obtain ⟨flow', hflow', hcount⟩ := exists_of_map_ok (by cbv :
    (Flow.ofConfig limits config).map (fun flow => pathCount flow.menu) = .ok 4)
  obtain rfl := Except.ok.inj (hflow.symm.trans hflow')
  have hpaths : pathCount flow.menu ≤ limits.maxPaths.toNat := hcount.le.trans (by decide)
  have hvalid : validate limits config (fun _ => none) = .ok () := by cbv
  exact ⟨t, flow, ht, hintegers, hflow, hpaths, hvalid, (hexact hpaths).mp hvalid⟩

end Validation

end RollMenu
