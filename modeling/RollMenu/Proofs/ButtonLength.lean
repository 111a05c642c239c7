import RollMenu.Proofs.OpenPaths

/-!
# How long button ids get

A button carries all values selected before it, so the longest ids are those behind the
longest values, deep in a menu. Configurations are meant to be turned down when an id can
get too long for the platform, and the search does measure every button that it sees.
But it follows corner cases only, and what makes a choice one is how great its number is
and not how long it is written. A number in the middle, written with leading zeros, is
passed by.

So an accepted configuration may have buttons that are too long. The main statement says
when: `longestId` computes the length of the longest id at each depth, and it has to be
looked at exactly where some placeholder before that depth does not keep its longest
value among the corner cases. Everywhere else the search has measured it.
-/

namespace RollMenu

/-! ## Lengths of texts and ids -/

/-- Number of characters of a longest text, and 0 if there is none. -/
def Text.longest (texts : List String) : Nat := (texts.map String.length).max?.getD 0

theorem Text.length_le_longest {texts : List String} {t : String} (h : t ∈ texts) :
    t.length ≤ Text.longest texts :=
  List.le_max?_getD_of_mem (List.mem_map_of_mem h)

theorem Text.exists_length_eq_longest {texts : List String} (h : texts ≠ []) :
    ∃ t ∈ texts, t.length = Text.longest texts := by
  cases hmax : (texts.map String.length).max? with
  | none => exact absurd (List.max?_eq_none_iff.mp hmax) (by simpa using h)
  | some n =>
    obtain ⟨t, ht, hlength⟩ := List.mem_map.mp (List.max?_mem hmax)
    exact ⟨t, ht, by rw [Text.longest, hmax, hlength, Option.getD_some]⟩

namespace WireId

/-- Number of characters of an id, by those of its parts. -/
def lengthOf (command : Nat) (selections : List Nat) (target click : Nat) : Nat :=
  command + (selections.sum + (selections.length - 1)) + target + click + 3

theorem length_intercalate (separator : Char) (parts : List String) :
    ((String.singleton separator).intercalate parts).length =
      (parts.map String.length).sum + (parts.length - 1) := by
  rw [← String.length_toList, String.toList_intercalate, String.toList_singleton]
  induction parts with
  | nil => rfl
  | cons part parts ih =>
    cases parts with
    | nil => simp [String.length_toList]
    | cons next rest =>
      have hstep : ([separator].intercalate ((part :: next :: rest).map String.toList)).length =
          part.length +
            (1 + ([separator].intercalate ((next :: rest).map String.toList)).length) := by
        simp only [List.map_cons, List.intercalate_cons_cons, List.length_append,
          List.length_singleton, String.length_toList]
        omega
      rw [hstep, ih]
      simp only [List.map_cons, List.sum_cons, List.length_cons]
      omega

theorem length_encode (id : WireId) :
    id.encode.length = lengthOf id.command.length (id.selections.map String.length)
      (targetField id.target).length id.click.length := by
  rw [encode, length_intercalate, lengthOf, List.length_map]
  simp only [List.map_cons, List.map_nil, List.sum_cons, List.sum_nil, List.length_cons,
    List.length_nil, length_intercalate]
  omega

theorem lengthOf_le {command target click click' : Nat} {ls ls' : List Nat}
    (h : List.Forall₂ (· ≤ ·) ls ls') (hclick : click ≤ click') :
    lengthOf command ls target click ≤ lengthOf command ls' target click' := by
  have hsum := h.sum_le_sum
  have hlength := h.length_eq
  unfold lengthOf
  omega

end WireId

/-! ## Longest values -/

namespace Parameter

variable {p : Parameter}

/-- Of the values after which the selection goes on, a longest one is a corner case. -/
def KeepsLongest (p : Parameter) : Prop :=
  ∀ v ∈ p.continuing, ∃ c ∈ Validation.corners p.choices,
    c.value ∈ p.continuing ∧ v.length ≤ c.value.length

instance (p : Parameter) : Decidable p.KeepsLongest :=
  inferInstanceAs (Decidable (∀ v ∈ p.continuing, ∃ c ∈ Validation.corners p.choices,
    c.value ∈ p.continuing ∧ v.length ≤ c.value.length))

end Parameter

namespace Menu

variable {m : Menu} {vs : List String} {target : Option UInt64}

/-! ## The longest id at each depth -/

/-- Number of characters of the longest click value after `k` selections. -/
def longestClick (m : Menu) (k : Nat) : Nat :=
  Text.longest ((m.parameters[k]?.map fun p => p.clicks k).getD [])

/-- Number of characters of the longest id after `k` selections. -/
def longestId (m : Menu) (target : Option UInt64) (k : Nat) : Nat :=
  WireId.lengthOf m.limits.commandName.length
    ((m.parameters.take k).map fun p => Text.longest p.continuing)
    (WireId.targetField target).length (m.longestClick k)

variable {parameter : Parameter}

theorem length_le_longestId {click : String} (hget : m.parameters[vs.length]? = some parameter)
    (hvs : List.Forall₂ (fun v p => v ∈ p.continuing) vs (m.parameters.take vs.length))
    (hclick : click ∈ parameter.clicks vs.length) :
    (m.wireId vs target click).encode.length ≤ m.longestId target vs.length := by
  rw [WireId.length_encode]
  refine WireId.lengthOf_le ?_ ?_
  · rw [List.forall₂_map_left_iff, List.forall₂_map_right_iff]
    exact hvs.imp fun v p hv => Text.length_le_longest hv
  · rw [longestClick, hget]
    exact Text.length_le_longest hclick

/-- Every button that is shown bears witness to its depth and to the length there. -/
theorem length_id_le_longestId {p : Progress} {b : Button}
    (hcheck : m.checkSelections p.selections = .ok ()) (hb : b ∈ m.buttons p target) :
    m.Reaches p.selections.length ∧ b.id.length ≤ m.longestId target p.selections.length := by
  obtain ⟨parameter, hp, click, hclick, hid⟩ := exists_click_of_mem_buttons hb
  obtain ⟨hget, hvs⟩ := pending_iff_continuing.mp ⟨hcheck, hp⟩
  refine ⟨reaches_of_pending hcheck hp, ?_⟩
  rw [hid]
  exact length_le_longestId hget hvs hclick

/-- Values that are as long as possible, with the longest click, make an id that is as long as
possible. -/
theorem exists_longestId_le (target : Option UInt64)
    (hget : m.parameters[vs.length]? = some parameter) (hne : parameter.choices ≠ [])
    (hvs : List.Forall₂ (fun v p => Text.longest p.continuing ≤ v.length) vs
      (m.parameters.take vs.length)) :
    ∃ click ∈ parameter.clicks vs.length,
      m.longestId target vs.length ≤ (m.wireId vs target click).encode.length := by
  have hclicks : parameter.clicks vs.length ≠ [] := by simp [Parameter.clicks, hne]
  obtain ⟨click, hclick, hlength⟩ := Text.exists_length_eq_longest hclicks
  refine ⟨click, hclick, ?_⟩
  rw [WireId.length_encode]
  refine WireId.lengthOf_le ?_ ?_
  · rw [List.forall₂_map_left_iff, List.forall₂_map_right_iff]
    exact hvs.flip
  · rw [longestClick, hget]
    exact hlength.ge

/-- A button with such an id is on the prompt. -/
theorem exists_button_longestId_le {p : Progress} (target : Option UInt64)
    (hp : m.pending p = some parameter) (hne : parameter.choices ≠ [])
    (hvs : List.Forall₂ (fun v p => Text.longest p.continuing ≤ v.length) p.selections
      (m.parameters.take p.selections.length)) :
    ∃ b ∈ m.buttons p target, m.longestId target p.selections.length ≤ b.id.length := by
  obtain ⟨click, hclick, hlength⟩ :=
    exists_longestId_le target (pending_eq_some_iff.mp hp).2 hne hvs
  have hid : (m.wireId p.selections target click).encode ∈
      (m.buttons p target).map Button.id := by
    rw [ids_buttons hp]
    exact List.mem_map_of_mem hclick
  obtain ⟨b, hb, hbid⟩ := List.mem_map.mp hid
  exact ⟨b, hb, hbid ▸ hlength⟩

/-- At a depth that is reached, one longest value of each parameter before it makes a button with
the longest id. The values can be asked for more than their length. -/
theorem Reaches.exists_button {k : Nat} {R : String → Parameter → Prop} (hk : m.Reaches k)
    (hne : ∀ p ∈ m.parameters, p.choices ≠ []) (target : Option UInt64)
    (h : ∀ p ∈ m.parameters.take k,
      ∃ v ∈ p.continuing, Text.longest p.continuing ≤ v.length ∧ R v p) :
    ∃ vs parameter, m.checkSelections vs = .ok () ∧
      m.pending { selections := vs } = some parameter ∧
      List.Forall₂ (fun v p => v ∈ p.continuing ∧ R v p) vs (m.parameters.take vs.length) ∧
      ∃ b ∈ m.buttons { selections := vs } target, m.longestId target k ≤ b.id.length := by
  obtain ⟨vs, parameter, rfl, hcheck, hp, hvs⟩ := hk.exists_pending h
  refine ⟨vs, parameter, hcheck, hp, hvs.imp fun _ _ h => ⟨h.1, h.2.2⟩, ?_⟩
  exact exists_button_longestId_le target hp (hne _ (mem_of_pending hp))
    (hvs.imp fun _ _ h => h.2.1)

/-- **No reachable button is longer than `n` exactly if no depth has a longer id.** -/
theorem length_id_reachable_iff {limits : Limits} {source : String}
    (hm : m.CompiledFrom source limits) (target : Option UInt64) (format : AnswerFormat) (n : Nat) :
    (∀ p, Reachable m p → ∀ b ∈ (m.prompt p target format).buttons, b.id.length ≤ n) ↔
      ∀ k, m.Reaches k → m.longestId target k ≤ n := by
  constructor
  · intro h k hk
    have hlongest : ∀ p ∈ m.parameters.take k,
        ∃ v ∈ p.continuing, Text.longest p.continuing ≤ v.length ∧ True := by
      intro p hp
      obtain ⟨v, hv, hlength⟩ := Text.exists_length_eq_longest (hk.2 p hp)
      exact ⟨v, hv, hlength.ge, trivial⟩
    obtain ⟨vs, parameter, hcheck, hp, -, b, hb, hlength⟩ :=
      hk.exists_button (fun p hp => (hm.parameter p hp).choices_ne_nil) target hlongest
    obtain ⟨p, hr, rfl, -⟩ := reachable_of_checkSelections hm.numbered "" hcheck
    -- the lock makes no difference to what is shown
    have hp' : m.pending p = some parameter := hp
    have hb' : b ∈ m.buttons p target := hb
    rw [← buttons_prompt_of_pending hp'] at hb'
    exact hlength.trans (h p hr b hb')
  · intro h p hr b hb
    cases hp : m.pending p with
    | some parameter =>
      rw [buttons_prompt_of_pending hp] at hb
      obtain ⟨hk, hlength⟩ := length_id_le_longestId (checkSelections_reachable hr) hb
      exact hlength.trans (h _ hk)
    | none =>
      -- a complete selection is shown like none
      rw [buttons_prompt_of_complete hp] at hb
      obtain ⟨hk, hlength⟩ := length_id_le_longestId checkSelections_nil hb
      exact hlength.trans (h _ hk)

end Menu

/-! ## What the search has measured -/

namespace Validation

variable {s : Search} {vs : List String} {k : Nat}

/-- **Where every placeholder keeps its longest value, the search has measured the longest id.** -/
theorem longestId_le_of_keepsLongest {limits : Limits} {source : String}
    (hm : s.menu.CompiledFrom source limits) (h : (s.visit s.menu.size {}).verdict = .ok ())
    (hk : s.menu.Reaches k) (hkeeps : ∀ p ∈ s.menu.parameters.take k, p.KeepsLongest) :
    s.menu.longestId s.target k ≤ limits.maxIdLength.toNat := by
  have hcorner : ∀ p ∈ s.menu.parameters.take k, ∃ v ∈ p.continuing,
      Text.longest p.continuing ≤ v.length ∧ ∃ c ∈ corners p.choices, c.value = v := by
    intro p hp
    obtain ⟨v, hv, hlength⟩ := Text.exists_length_eq_longest (hk.2 p hp)
    obtain ⟨c, hc, hgoeson, hle⟩ := hkeeps p hp v hv
    exact ⟨c.value, hgoeson, hlength ▸ hle, c, hc, rfl⟩
  obtain ⟨vs, parameter, -, -, hvs, b, hb, hlength⟩ :=
    hk.exists_button (fun p hp => (hm.parameter p hp).choices_ne_nil) s.target hcorner
  have hfits := Search.length_id_of_explored hm.numbered h (explored_of_followed hvs) hb
  rw [hm.limits_eq] at hfits
  exact hlength.trans hfits

/--
**When an accepted configuration has no button that is too long.** All reachable buttons fit
exactly if the longest ids fit at those depths before which some placeholder has its longest
values only among choices that are no corner cases.
-/
theorem buttons_fit_iff_of_validate {limits : Limits} {config : Config}
    {complaint : String → Option String} (h : validate limits config complaint = .ok ()) :
    ∃ flow, Flow.ofConfig limits config = .ok flow ∧
      ((∀ p, Reachable flow.menu p → ∀ b ∈ (flow.prompt p).buttons,
          b.id.length ≤ limits.maxIdLength.toNat) ↔
        ∀ k, flow.menu.Reaches k → (∃ p ∈ flow.menu.parameters.take k, ¬ p.KeepsLongest) →
          flow.menu.longestId config.answerTarget k ≤ limits.maxIdLength.toNat) := by
  obtain ⟨menu, hmenu, hvisit⟩ := visit_of_validate h
  have hcompiled := Menu.compiledFrom_of_compile hmenu
  have hreachable := Menu.length_id_reachable_iff hcompiled config.answerTarget
    config.answerFormat limits.maxIdLength.toNat
  refine ⟨{ config, menu }, by rw [Flow.ofConfig, hmenu]; rfl, Iff.trans hreachable ?_⟩
  constructor
  · intro hall k hk _
    exact hall k hk
  · intro hrest k hk
    by_cases hkeeps : ∀ p ∈ menu.parameters.take k, p.KeepsLongest
    · exact longestId_le_of_keepsLongest (s := searchOf menu config complaint) hcompiled hvisit hk
        hkeeps
    · exact hrest k hk (by simpa using hkeeps)

/-- A number in the middle is the longest value, and its id just fits. -/
theorem buttons_fit_iff_of_validate_padded_middle :
    ∃ flow, Flow.ofConfig { maxIdLength := 26 } { template := "{A:1/02/3}+{B:1/2}" } = .ok flow ∧
      ∀ p, Reachable flow.menu p → ∀ b ∈ (flow.prompt p).buttons, b.id.length ≤ 26 := by
  obtain ⟨flow, hflow, hiff⟩ := buttons_fit_iff_of_validate (by cbv :
    validate { maxIdLength := 26 } { template := "{A:1/02/3}+{B:1/2}" } (fun _ => none) = .ok ())
  obtain ⟨other, hother, hlengths⟩ := exists_of_map_ok (by cbv :
    (Flow.ofConfig { maxIdLength := 26 } { template := "{A:1/02/3}+{B:1/2}" }).map
      (fun flow => (flow.menu.size, flow.menu.longestId none 0, flow.menu.longestId none 1)) =
        .ok (2, 22, 26))
  obtain rfl := Except.ok.inj (hother.symm.trans hflow)
  simp only [Prod.mk.injEq] at hlengths
  obtain ⟨hsize, hfirst, hsecond⟩ := hlengths
  refine ⟨other, hother, hiff.mpr fun k hk _ => ?_⟩
  have hlt : k < 2 := hsize ▸ hk.1
  obtain rfl | rfl : k = 0 ∨ k = 1 := by omega
  · exact hfirst.le.trans (by decide)
  · exact hsecond.le

/-- With one character less the configuration is accepted all the same. The search passes the
padded number by, and the clear button behind it is too long. -/
theorem too_long_of_validate_padded_middle :
    validate { maxIdLength := 25 } { template := "{A:1/02/3}+{B:1/2}" } (fun _ => none) = .ok () ∧
      ∃ flow, Flow.ofConfig { maxIdLength := 25 } { template := "{A:1/02/3}+{B:1/2}" } = .ok flow ∧
        ∃ p, Reachable flow.menu p ∧ ∃ b ∈ (flow.prompt p).buttons, 25 < b.id.length := by
  refine ⟨by cbv, ?_⟩
  obtain ⟨flow, hflow, hlengths⟩ := exists_of_map_ok (by cbv :
    (Flow.ofConfig { maxIdLength := 25 } { template := "{A:1/02/3}+{B:1/2}" }).map
      (fun flow => (flow.prompt (flow.click {} "id2" "alice").progress).buttons.map
        fun b => b.id.length) = .ok [24, 24, 26])
  refine ⟨flow, hflow, (flow.click {} "id2" "alice").progress, .tail .init _ _ _, ?_⟩
  have hlong : 26 ∈ (flow.prompt (flow.click {} "id2" "alice").progress).buttons.map
      fun b => b.id.length := by
    rw [hlengths]
    decide
  obtain ⟨b, hb, hlength⟩ := List.mem_map.mp hlong
  exact ⟨b, hb, hlength ▸ by decide⟩

end Validation

end RollMenu
