import Mathlib.Data.List.Induction
import RollMenu.Proofs.Compile
import RollMenu.Proofs.Explored

/-!
# The corner cases

The greatest and the least integer are found by going through the integers once and
keeping the best one so far. `Kept` says which one that is, also among equal integers.
Hence among the corner cases of a placeholder there are two that every offered integer
lies between, and every special choice is one of them.
-/

namespace RollMenu.Validation

variable {choices : List Choice} {c : Choice}

/-! ## The greatest and the least integer -/

section Kept

variable {α : Type} {yields : α → α → Prop} {ns : List α} {b : α}

/-- An element of a list to which everything before it yields and which yields to nothing behind
it. -/
def Kept (yields : α → α → Prop) (ns : List α) (b : α) : Prop :=
  ∃ before after, ns = before ++ b :: after ∧ (∀ n ∈ before, yields n b) ∧
    ∀ n ∈ after, ¬ yields b n

theorem Kept.mem (h : Kept yields ns b) : b ∈ ns := by
  obtain ⟨before, after, rfl, -⟩ := h
  simp

theorem Kept.forall_mem {P : α → Prop} (h : Kept yields ns b) (hself : P b)
    (hbefore : ∀ n, yields n b → P n) (hbehind : ∀ n, ¬ yields b n → P n) : ∀ n ∈ ns, P n := by
  obtain ⟨before, after, rfl, hyield, hnot⟩ := h
  intro n hn
  rcases List.mem_append.mp hn with hn | hn
  · exact hbefore n (hyield n hn)
  rcases List.mem_cons.mp hn with rfl | hn
  · exact hself
  · exact hbehind n (hnot n hn)

/-- It stays so when others are taken out of the list. -/
theorem Kept.filter (h : Kept yields ns b) {p : α → Bool} (hb : p b = true) :
    Kept yields (ns.filter p) b := by
  obtain ⟨before, after, rfl, hbefore, hafter⟩ := h
  refine ⟨before.filter p, after.filter p, ?_, fun n hn => ?_, fun n hn => ?_⟩
  · rw [List.filter_append, List.filter_cons_of_pos hb]
  · exact hbefore n (List.mem_of_mem_filter hn)
  · exact hafter n (List.mem_of_mem_filter hn)

variable [DecidableRel yields] {better : Option α → α → Option α}

theorem exists_foldl_better (hfirst : ∀ n, better none n = some n)
    (hnext : ∀ b n, better (some b) n = if yields b n then some n else some b) (hne : ns ≠ []) :
    ∃ b, ns.foldl better none = some b := by
  obtain ⟨ms, n, rfl⟩ := List.eq_nil_or_concat ns |>.resolve_left hne
  rw [List.concat_eq_append, List.foldl_concat]
  cases ms.foldl better none with
  | none => exact ⟨n, hfirst n⟩
  | some b =>
    rw [hnext]
    split
    · exact ⟨n, rfl⟩
    · exact ⟨b, rfl⟩

theorem kept_of_foldl_better (hfirst : ∀ n, better none n = some n)
    (hnext : ∀ b n, better (some b) n = if yields b n then some n else some b)
    (htrans : ∀ a b c, yields a b → yields b c → yields a c)
    (hbetween : ∀ a b c, yields a c → yields a b ∨ yields b c)
    (h : ns.foldl better none = some b) : Kept yields ns b := by
  induction ns using List.reverseRecOn generalizing b with
  | nil => cases h
  | append_singleton ns n ih =>
    rw [List.foldl_concat] at h
    by_cases hns : ns = []
    · subst hns
      obtain rfl := Option.some.inj ((hfirst n).symm.trans h)
      exact ⟨[], [], rfl, by simp, by simp⟩
    obtain ⟨c, hc⟩ := exists_foldl_better hfirst hnext hns
    obtain ⟨before, after, rfl, hbefore, hafter⟩ := ih hc
    rw [hc, hnext] at h
    by_cases hyields : yields c n
    · -- everything so far yields to the new element, because the one that was kept of it does
      rw [if_pos hyields] at h
      obtain rfl := Option.some.inj h
      refine ⟨before ++ c :: after, [], rfl, fun m hm => ?_, by simp⟩
      rcases List.mem_append.mp hm with hm | hm
      · exact htrans m c n (hbefore m hm) hyields
      rcases List.mem_cons.mp hm with rfl | hm
      · exact hyields
      · exact (hbetween c m n hyields).resolve_left (hafter m hm)
    · rw [if_neg hyields] at h
      obtain rfl := Option.some.inj h
      refine ⟨before, after ++ [n], by simp, hbefore, fun m hm => ?_⟩
      rcases List.mem_append.mp hm with hm | hm
      · exact hafter m hm
      · obtain rfl := List.mem_singleton.mp hm
        exact hyields

theorem foldl_better_of_forall_not
    (hnext : ∀ b n, better (some b) n = if yields b n then some n else some b)
    (h : ∀ n ∈ ns, ¬ yields b n) : ns.foldl better (some b) = some b := by
  induction ns with
  | nil => rfl
  | cons n ns ih =>
    obtain ⟨hn, hns⟩ := List.forall_mem_cons.mp h
    rw [List.foldl_cons, hnext, if_neg hn, ih hns]

/-- **What is left of a list that is gone through,** each element taking the place of the one
before it that was kept, if that yields to it. -/
theorem foldl_better_eq_some_iff (hfirst : ∀ n, better none n = some n)
    (hnext : ∀ b n, better (some b) n = if yields b n then some n else some b)
    (htrans : ∀ a b c, yields a b → yields b c → yields a c)
    (hbetween : ∀ a b c, yields a c → yields a b ∨ yields b c) :
    ns.foldl better none = some b ↔ Kept yields ns b := by
  refine ⟨kept_of_foldl_better hfirst hnext htrans hbetween, ?_⟩
  rintro ⟨before, after, rfl, hbefore, hafter⟩
  rw [List.append_cons, List.foldl_append, List.foldl_concat]
  have htaken : better (before.foldl better none) b = some b := by
    cases hc : before.foldl better none with
    | none => exact hfirst b
    | some c =>
      have hmem := (kept_of_foldl_better hfirst hnext htrans hbetween hc).mem
      rw [hnext, if_pos (hbefore c hmem)]
  rw [htaken]
  exact foldl_better_of_forall_not hnext hafter

end Kept

/-- Of the greatest integers the last one is found. -/
theorem greatest_eq_some_iff {ns : List (Int × Choice)} {b : Int × Choice} :
    greatest ns = some b ↔ Kept (fun b n => b.1 ≤ n.1) ns b := by
  unfold greatest
  refine foldl_better_eq_some_iff (fun _ => rfl) (fun _ _ => rfl) ?_ ?_
  · exact fun _ _ _ => Int.le_trans
  · exact fun _ _ _ _ => by omega

/-- Of the least integers the first one is found. -/
theorem least_eq_some_iff {ns : List (Int × Choice)} {b : Int × Choice} :
    least ns = some b ↔ Kept (fun b n => n.1 < b.1) ns b := by
  unfold least
  refine foldl_better_eq_some_iff (fun _ => rfl) (fun _ _ => rfl) ?_ ?_
  · exact fun _ _ _ h h' => Int.lt_trans h' h
  · exact fun _ _ _ _ => by omega

theorem exists_greatest {ns : List (Int × Choice)} (hne : ns ≠ []) :
    ∃ b ∈ ns, (∀ n ∈ ns, n.1 ≤ b.1) ∧ greatest ns = some b := by
  obtain ⟨b, hb⟩ : ∃ b, greatest ns = some b :=
    exists_foldl_better (fun _ => rfl) (fun _ _ => rfl) hne
  have hkept := greatest_eq_some_iff.mp hb
  refine ⟨b, hkept.mem, hkept.forall_mem ?_ ?_ ?_, hb⟩
  · exact Int.le_refl _
  · exact fun _ h => h
  · exact fun _ h => Int.le_of_lt (Int.not_le.mp h)

theorem exists_least {ns : List (Int × Choice)} (hne : ns ≠ []) :
    ∃ b ∈ ns, (∀ n ∈ ns, b.1 ≤ n.1) ∧ least ns = some b := by
  obtain ⟨b, hb⟩ : ∃ b, least ns = some b :=
    exists_foldl_better (fun _ => rfl) (fun _ _ => rfl) hne
  have hkept := least_eq_some_iff.mp hb
  refine ⟨b, hkept.mem, hkept.forall_mem ?_ ?_ ?_, hb⟩
  · exact Int.le_refl _
  · exact fun _ h => Int.le_of_lt h
  · exact fun _ h => Int.not_lt.mp h

theorem mem_numerics_iff {n : Int} :
    (n, c) ∈ numerics choices ↔ c ∈ choices ∧ c.numeric? = some n := by
  unfold numerics
  simp only [List.mem_filterMap, Option.map_eq_some_iff, Prod.mk.injEq]
  constructor
  · rintro ⟨d, hd, k, hk, rfl, rfl⟩
    exact ⟨hd, hk⟩
  · rintro ⟨hc, hn⟩
    exact ⟨c, hc, n, hn, rfl, rfl⟩

/-! ## What is kept -/

theorem isSpecial_eq_true_iff : isSpecial c = true ↔
    c.direct = true ∨ c.numeric? = none ∨ Text.trim c.value.toList = ['0'] := by
  simp only [isSpecial, Bool.or_eq_true, beq_iff_eq, Option.isNone_iff_eq_none]
  tauto

/-- What is not special is an integer and not direct. -/
theorem exists_numeric_of_not_special (h : isSpecial c ≠ true) :
    c.direct = false ∧ ∃ n, c.numeric? = some n := by
  rw [ne_eq, isSpecial_eq_true_iff, not_or, not_or] at h
  exact ⟨Bool.eq_false_iff.mpr h.1, Option.ne_none_iff_exists'.mp h.2.1⟩

/-- A choice that is kept as the greatest or as the least integer. -/
def Extreme (choices : List Choice) (c : Choice) : Prop :=
  ∃ n, greatest (numerics choices) = some (n, c) ∨ least (numerics choices) = some (n, c)

theorem Extreme.mem (h : Extreme choices c) : c ∈ choices := by
  obtain ⟨n, h | h⟩ := h
  · exact (mem_numerics_iff.mp (greatest_eq_some_iff.mp h).mem).1
  · exact (mem_numerics_iff.mp (least_eq_some_iff.mp h).mem).1

theorem mem_cornerIds_iff {id : String} :
    id ∈ cornerIds choices ↔
      ∃ c, (Extreme choices c ∨ c ∈ choices ∧ isSpecial c = true) ∧ c.id = id := by
  simp only [cornerIds, Extreme, List.mem_append, List.mem_map, List.mem_filter,
    Option.mem_toList, Prod.exists]
  constructor
  · rintro (⟨n, c, h, hid⟩ | ⟨c, h, hid⟩)
    · exact ⟨c, Or.inl ⟨n, h⟩, hid⟩
    · exact ⟨c, Or.inr h, hid⟩
  · rintro ⟨c, ⟨n, h⟩ | h, hid⟩
    · exact Or.inl ⟨n, c, h, hid⟩
    · exact Or.inr ⟨c, h, hid⟩

theorem mem_corners_iff : c ∈ corners choices ↔ c ∈ choices ∧ c.id ∈ cornerIds choices := by
  rw [corners, List.mem_filter, List.contains_iff_mem]

theorem mem_corners_of_special (hc : c ∈ choices) (h : isSpecial c = true) :
    c ∈ corners choices :=
  mem_corners_iff.mpr ⟨hc, mem_cornerIds_iff.mpr ⟨c, Or.inr ⟨hc, h⟩, rfl⟩⟩

theorem Extreme.mem_corners (h : Extreme choices c) : c ∈ corners choices :=
  mem_corners_iff.mpr ⟨h.mem, mem_cornerIds_iff.mpr ⟨c, Or.inl h, rfl⟩⟩

/-- An integer that is offered lies between two corner cases. -/
theorem exists_corners_of_numeric {n : Int} (hc : c ∈ choices) (hn : c.numeric? = some n) :
    ∃ low c₁ high c₂, c₁ ∈ corners choices ∧ c₁.numeric? = some low ∧ c₂ ∈ corners choices ∧
      c₂.numeric? = some high ∧ low ≤ n ∧ n ≤ high := by
  have hmem := mem_numerics_iff.mpr ⟨hc, hn⟩
  have hne : numerics choices ≠ [] := List.ne_nil_of_mem hmem
  obtain ⟨⟨high, c₂⟩, hhigh, hgreatest, hg⟩ := exists_greatest hne
  obtain ⟨⟨low, c₁⟩, hlow, hleast, hl⟩ := exists_least hne
  have hc₁ : Extreme choices c₁ := ⟨low, Or.inr hl⟩
  have hc₂ : Extreme choices c₂ := ⟨high, Or.inl hg⟩
  exact ⟨low, c₁, high, c₂, hc₁.mem_corners, (mem_numerics_iff.mp hlow).2, hc₂.mem_corners,
    (mem_numerics_iff.mp hhigh).2, hleast _ hmem, hgreatest _ hmem⟩

/-- Where something is offered there is a corner case. -/
theorem corners_ne_nil (hne : choices ≠ []) : corners choices ≠ [] := by
  obtain ⟨c, hc⟩ := List.exists_mem_of_ne_nil choices hne
  by_cases hspecial : isSpecial c = true
  · exact List.ne_nil_of_mem (mem_corners_of_special hc hspecial)
  · obtain ⟨-, n, hn⟩ := exists_numeric_of_not_special hspecial
    obtain ⟨_, c₁, _, _, hc₁, -⟩ := exists_corners_of_numeric hc hn
    exact List.ne_nil_of_mem hc₁

end RollMenu.Validation
