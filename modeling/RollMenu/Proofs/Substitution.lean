import RollMenu.Click
import RollMenu.Proofs.Compile
import RollMenu.Template.Reader

/-!
# Filling templates in

A placeholder is filled by its number, and the number is its position in the template.
So a filled template is its slots and the values side by side, and to put another value
in one place leaves the text before it and behind it as it was.
-/

namespace RollMenu

namespace Template

/-- The placeholders of the slots are numbered from `k` on. -/
def NumberedFrom : Nat → List Slot → Prop
  | _, [] => True
  | k, slot :: slots => slot.placeholder.index = k ∧ NumberedFrom (k + 1) slots

theorem NumberedFrom.index_eq {k i : Nat} {slots : List Slot} {slot : Slot}
    (h : NumberedFrom k slots) (hslot : slots[i]? = some slot) :
    slot.placeholder.index = k + i := by
  induction slots generalizing k i with
  | nil => cases hslot
  | cons first slots ih =>
    obtain ⟨hindex, hslots⟩ := h
    cases i with
    | zero =>
      obtain rfl := Option.some.inj hslot
      exact hindex
    | succ i => rw [ih hslots hslot, Nat.add_assoc, Nat.add_comm 1 i]

theorem index_of_readPlaceholder {index start : Nat} {inner : List Char} {p : Placeholder}
    (h : readPlaceholder index start inner = .ok p) : p.index = index := by
  unfold readPlaceholder at h
  dsimp only at h
  split at h
  · cases h
  split at h
  · cases h
  · obtain rfl := Except.ok.inj h
    rfl

theorem numberedFrom_of_readSlots {index position : Nat} {cs tail : List Char}
    {slots : List Slot} (h : readSlots index position cs = .ok (slots, tail)) :
    NumberedFrom index slots := by
  fun_induction readSlots index position cs generalizing slots tail with
  | case1 =>
    obtain ⟨rfl, rfl⟩ := Prod.mk.inj (Except.ok.inj h).symm
    trivial
  | case2 | case3 | case4 => cases h
  | @case5 index position cs lead start o behind ho hopen inner d rest hd hclose hlt ih =>
    obtain ⟨p, hp, h⟩ := exists_of_bind_ok h
    obtain ⟨⟨more, tail'⟩, hmore, h⟩ := exists_of_bind_ok h
    obtain ⟨rfl, rfl⟩ := Prod.mk.inj (Except.ok.inj h).symm
    exact ⟨index_of_readPlaceholder hp, ih p hmore⟩

theorem numberedFrom_of_parse {source : String} {t : Template} (h : parse source = .ok t) :
    NumberedFrom 0 t.slots := by
  obtain ⟨⟨slots, tail⟩, hread, h⟩ := exists_of_bind_ok h
  obtain rfl := Except.ok.inj h
  exact numberedFrom_of_readSlots hread

/-- Slots and values side by side. -/
def filledSlots (slots : List Slot) (values : List String) : List Char :=
  (List.zipWith (fun slot v => slot.lead.toList ++ v.toList) slots values).flatten

theorem toList_renderSlots {slots : List Slot} (before values : List String)
    (hslots : NumberedFrom before.length slots) (hlength : values.length = slots.length) :
    (renderSlots (fun p => (before ++ values)[p.index]?.getD p.expression) slots).toList =
      filledSlots slots values := by
  induction slots generalizing before values with
  | nil => simp [filledSlots]
  | cons slot slots ih =>
    obtain ⟨v, values, rfl⟩ := List.exists_cons_of_length_eq_add_one hlength
    obtain ⟨hindex, hslots⟩ := hslots
    have hvalue : (before ++ v :: values)[slot.placeholder.index]? = some v := by
      rw [hindex, List.getElem?_append_right (Nat.le_refl _), Nat.sub_self]
      rfl
    have hrest := ih (before ++ [v]) values (by rwa [List.length_append]) (Nat.succ.inj hlength)
    rw [List.append_assoc, List.singleton_append] at hrest
    rw [renderSlots_cons, String.toList_append, String.toList_append, hrest, hvalue]
    simp [filledSlots]

theorem toList_substitute {t : Template} {values : List String} (ht : NumberedFrom 0 t.slots)
    (hlength : values.length = t.slots.length) :
    (t.substitute values).toList = filledSlots t.slots values ++ t.body.toList := by
  rw [substitute, String.toList_append]
  congr 1
  exact toList_renderSlots [] values ht hlength

/-- The text between a placeholder and the one before it. -/
def leadAt (t : Template) (i : Nat) : List Char := (t.slots[i]?.map Slot.lead).elim [] String.toList

/-- The text between a placeholder and the next one, or the end. -/
def followAt (t : Template) (i : Nat) : List Char :=
  ((t.slots[i + 1]?.map Slot.lead).getD t.body).toList

theorem filledSlots_append {xs ys : List Slot} {us ws : List String}
    (h : us.length = xs.length) :
    filledSlots (xs ++ ys) (us ++ ws) = filledSlots xs us ++ filledSlots ys ws := by
  rw [filledSlots, List.zipWith_append h.symm, List.flatten_append]
  rfl

theorem filledSlots_cons (slot : Slot) (slots : List Slot) (v : String) (values : List String) :
    filledSlots (slot :: slots) (v :: values) =
      slot.lead.toList ++ (v.toList ++ filledSlots slots values) := by
  simp [filledSlots]

/-- **A value stands between two texts that do not depend on it.** The parts of them that belong
to the template are next to it, and at the ends of the template there is nothing else. -/
theorem exists_substitute_eq {t : Template} (us ws : List String) (ht : NumberedFrom 0 t.slots)
    (hlength : us.length + (ws.length + 1) = t.slots.length) :
    ∃ before behind,
      (∀ v, (t.substitute (us ++ v :: ws)).toList =
        (before ++ t.leadAt us.length) ++ (v.toList ++ (t.followAt us.length ++ behind))) ∧
      (us = [] → before = []) ∧ (ws = [] → behind = []) := by
  have hlt : us.length < t.slots.length := by omega
  obtain ⟨xs, slot, ys, hslots, hxs⟩ :
      ∃ xs slot ys, t.slots = xs ++ slot :: ys ∧ us.length = xs.length := by
    refine ⟨t.slots.take us.length, t.slots[us.length], t.slots.drop (us.length + 1), ?_, ?_⟩
    · rw [← List.drop_eq_getElem_cons hlt, List.take_append_drop]
    · rw [List.length_take, Nat.min_eq_left (Nat.le_of_lt hlt)]
  have hys : ws.length = ys.length := by
    rw [hslots, List.length_append, List.length_cons] at hlength
    omega
  have hlead : t.leadAt us.length = slot.lead.toList := by
    rw [leadAt, hslots, hxs, List.getElem?_append_right (Nat.le_refl _), Nat.sub_self]
    rfl
  have hnext : t.slots[us.length + 1]? = ys[0]? := by
    have hone : xs.length + 1 - xs.length = 1 := by omega
    rw [hslots, hxs, List.getElem?_append_right (Nat.le_add_right _ _), hone]
    rfl
  have htext : ∀ v, (t.substitute (us ++ v :: ws)).toList =
      (filledSlots xs us ++ slot.lead.toList) ++
        (v.toList ++ (filledSlots ys ws ++ t.body.toList)) := by
    intro v
    rw [toList_substitute ht (by simpa using hlength), hslots, filledSlots_append hxs,
      filledSlots_cons]
    simp only [List.append_assoc]
  have hbefore : us = [] → filledSlots xs us = [] := by
    rintro rfl
    exact congrArg List.flatten List.zipWith_nil_right
  -- what follows is either the text before another value or the end of the template
  cases ys with
  | nil =>
    obtain rfl := List.length_eq_zero_iff.mp hys
    refine ⟨filledSlots xs us, [], ?_, hbefore, fun _ => rfl⟩
    intro v
    rw [htext, hlead, followAt, hnext]
    simp [filledSlots]
  | cons slot' ys =>
    obtain ⟨w, ws, rfl⟩ := List.exists_cons_of_length_eq_add_one hys
    refine ⟨filledSlots xs us, w.toList ++ (filledSlots ys ws ++ t.body.toList), ?_, hbefore, ?_⟩
    · intro v
      rw [htext, hlead, followAt, hnext, filledSlots_cons]
      simp
    · intro h
      cases h

end Template

namespace Menu

/-- A menu whose parameters belong to its template. -/
structure Aligned (m : Menu) : Prop where
  numbered : Template.NumberedFrom 0 m.template.slots
  placeholders : m.parameters.map Parameter.placeholder = m.template.placeholders

theorem placeholder_of_expand {formats : List SpecFormat} {limits : Limits} {count : Nat}
    {p : Placeholder} {parameter : Parameter}
    (h : expand formats limits count p = .ok parameter) : parameter.placeholder = p := by
  obtain ⟨choices, -, h⟩ := exists_of_bind_ok h
  split at h
  · cases h
  · obtain rfl := Except.ok.inj h
    rfl

theorem aligned_of_compile {limits : Limits} {source : String} {m : Menu}
    (h : compile limits source = .ok m) : m.Aligned := by
  obtain ⟨hparse, -, hexpand⟩ := compile_ok h
  refine ⟨Template.numberedFrom_of_parse hparse, ?_⟩
  have hplaceholders := hexpand.imp fun _ _ h => (placeholder_of_expand h).symm
  rw [← List.forall₂_map_right_iff, List.forall₂_eq_eq_eq] at hplaceholders
  exact hplaceholders.symm

variable {m : Menu}

theorem Aligned.size_eq (hm : m.Aligned) : m.size = m.template.slots.length := by
  have h := congrArg List.length hm.placeholders
  rwa [Template.placeholders, List.length_map, List.length_map] at h

/-- A parameter's placeholder has the parameter's place for its number. -/
theorem Aligned.index_eq (hm : m.Aligned) {i : Nat} {p : Parameter}
    (h : m.parameters[i]? = some p) : p.placeholder.index = i := by
  have hget := congrArg (fun ps : List Placeholder => ps[i]?) hm.placeholders
  simp only [Template.placeholders, List.getElem?_map, h] at hget
  obtain ⟨slot, hslot, hp⟩ := Option.map_eq_some_iff.mp hget.symm
  rw [← hp, hm.numbered.index_eq hslot, Nat.zero_add]

/-- The values that fill the template are the selected ones and then skipped ones. -/
theorem filling_eq {vs : List String} (h : vs.length ≤ m.size) :
    m.filling { selections := vs } = vs ++ List.replicate (m.size - vs.length) skippedValue := by
  refine List.ext_getElem ?_ ?_
  · simp [filling]
    omega
  · intro i hi _
    simp only [filling, List.length_map, List.length_range] at hi
    simp only [filling, List.getElem_map, List.getElem_range]
    by_cases hlt : i < vs.length
    · simp [hlt]
    · rw [List.getElem_append_right (Nat.le_of_not_lt hlt),
        List.getElem?_eq_none (by simpa using hlt), List.getElem_replicate]
      rfl

end Menu

end RollMenu
