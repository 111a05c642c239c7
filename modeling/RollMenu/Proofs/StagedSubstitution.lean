import Mathlib
import RollMenu.Proofs.BracePairs

/-!
# Filling a template in stages

A template that is filled in part is a text again, and reading it gives the template of what is
still open. That is not for free: the filled text has other positions, its first gap has more
text in front, and the answer label is gone, so that the end of the text is searched for a label
once more.

What carries the proof is that slots are read back from the text they are written as. A value
becomes part of the lead of the next open gap, and as long as there is no brace in it, this is a
slot that can be written and read. The positions are counted anew, and nothing but the positions
depends on the count.
-/

namespace RollMenu

/-- Taking and dropping stop at the first character that is not taken. -/
theorem span_append_cons {p : Char → Bool} {xs : List Char} {c : Char}
    (hxs : ∀ x ∈ xs, p x = true) (hc : p c = false) (ys : List Char) :
    (xs ++ c :: ys).takeWhile p = xs ∧ (xs ++ c :: ys).dropWhile p = c :: ys := by
  have hstop : ¬ p c = true := by rw [hc]; exact Bool.false_ne_true
  constructor
  · rw [List.takeWhile_append_of_pos hxs, List.takeWhile_cons_of_neg hstop, List.append_nil]
  · rw [List.dropWhile_append_of_pos hxs, List.dropWhile_cons_of_neg hstop]

/-- A slot that can be written down and read again. -/
structure Slot.Legible (slot : Slot) : Prop where
  lead : Template.Plain slot.lead.toList
  inner : Template.Plain slot.placeholder.inner.toList
  /-- A name ends at the first colon. -/
  name : ':' ∉ slot.placeholder.name.toList
  named : ¬ Text.Blank slot.placeholder.name.toList

/-- A slot with more text in front. -/
def Slot.behind (slot : Slot) (front : List Char) : Slot :=
  { slot with lead := String.ofList (front ++ slot.lead.toList) }

theorem Slot.Legible.behind {slot : Slot} {front : List Char} (h : slot.Legible)
    (hfront : Template.Plain front) : (slot.behind front).Legible where
  lead := by
    rw [Slot.behind, String.toList_ofList]
    exact List.forall_mem_append.mpr ⟨hfront, h.lead⟩
  inner := h.inner
  name := h.name
  named := h.named

namespace Template

/-! ## Reading what is written -/

theorem splitSpec_inner {p : Placeholder} (h : ':' ∉ p.name.toList) :
    splitSpec p.inner.toList = (p.name.toList, p.spec.map String.toList) := by
  have hname : ∀ c ∈ p.name.toList, (c != ':') = true := by
    intro c hc
    exact bne_iff_ne.mpr fun heq => h (heq ▸ hc)
  unfold splitSpec Placeholder.inner
  cases p.spec with
  | none => rw [List.dropWhile_eq_nil_iff.mpr hname]; rfl
  | some spec =>
    have htext : (p.name ++ ":" ++ spec).toList = p.name.toList ++ ':' :: spec.toList := by simp
    obtain ⟨htake, hdrop⟩ := span_append_cons hname (c := ':') rfl spec.toList
    dsimp only
    rw [htext, hdrop, htake]
    rfl

/-- A placeholder is read back from what stands between its braces, at the place it is given. -/
theorem readPlaceholder_inner {p : Placeholder} (h : ':' ∉ p.name.toList)
    (hnamed : ¬ Text.Blank p.name.toList) (index start : Nat) :
    readPlaceholder index start p.inner.toList =
      .ok { p with index, start, stop := start + Text.byteLength p.inner.toList + 2 } := by
  have hinner : ¬ Text.Blank p.inner.toList := by
    intro hblank
    refine hnamed fun c hc => hblank c ?_
    unfold Placeholder.inner
    cases p.spec with
    | none => exact hc
    | some spec => simp [hc]
  unfold readPlaceholder
  rw [splitSpec_inner h, if_neg hinner, if_neg hnamed]
  cases p.spec <;> simp

theorem readSlots_of_plain {cs : List Char} (h : Plain cs) (index position : Nat) :
    readSlots index position cs = .ok ([], cs) := by
  have hdrop : cs.dropWhile isPlain = [] := List.dropWhile_eq_nil_iff.mpr h
  unfold readSlots
  split
  · rw [List.takeWhile_eq_self_iff.mpr h]
  · rename_i hopen
    cases hdrop.symm.trans hopen
  · rename_i hopen
    cases hdrop.symm.trans hopen

/-- A text that begins with a pair of braces is read pair by pair. -/
theorem readSlots_pair {lead inner : List Char} (hlead : Plain lead) (hinner : Plain inner)
    (rest : List Char) (index position : Nat) :
    readSlots index position (lead ++ '{' :: (inner ++ '}' :: rest)) = (do
      let p ← readPlaceholder index (position + Text.byteLength lead) inner
      let (slots, tail) ← readSlots (index + 1) p.stop rest
      return (⟨String.ofList lead, p⟩ :: slots, tail)) := by
  obtain ⟨htake, hopen⟩ := span_append_cons hlead (c := '{') rfl (inner ++ '}' :: rest)
  obtain ⟨htake', hclose⟩ := span_append_cons hinner (c := '}') rfl rest
  conv_lhs => unfold readSlots
  rw [htake]
  split
  · rename_i h
    cases hopen.symm.trans h
  · rename_i h
    cases hopen.symm.trans h
  · rename_i h
    obtain ⟨rfl, rfl⟩ := List.cons.inj (hopen.symm.trans h)
    rw [htake']
    split
    · rename_i h
      cases hclose.symm.trans h
    · rename_i h
      cases hclose.symm.trans h
    · rename_i h
      obtain ⟨rfl, rfl⟩ := List.cons.inj (hclose.symm.trans h)
      rfl

/-- The text of slots whose placeholders are all open. -/
def written (slots : List Slot) : List Char :=
  filledSlots slots (slots.map fun slot => slot.placeholder.expression)

/-- The slots as they are found where they are written from byte `position` on, the first
placeholder being number `index`. -/
def placedFrom : Nat → Nat → List Slot → List Slot
  | _, _, [] => []
  | index, position, slot :: slots =>
    let start := position + Text.byteLength slot.lead.toList
    let stop := start + Text.byteLength slot.placeholder.inner.toList + 2
    { slot with placeholder := { slot.placeholder with index, start, stop } } ::
      placedFrom (index + 1) stop slots

theorem written_cons (slot : Slot) (slots : List Slot) :
    written (slot :: slots) = slot.lead.toList ++
      '{' :: (slot.placeholder.inner.toList ++ '}' :: written slots) := by
  rw [written, List.map_cons, filledSlots_cons, toList_expression, ← written]
  simp

theorem written_behind (slot : Slot) (front : List Char) (slots : List Slot) :
    written (slot.behind front :: slots) = front ++ written (slot :: slots) := by
  rw [written_cons, written_cons, Slot.behind, String.toList_ofList, List.append_assoc]

theorem filledSlots_behind (slot : Slot) (front : List Char) (slots : List Slot) (v : String)
    (values : List String) :
    filledSlots (slot.behind front :: slots) (v :: values) =
      front ++ filledSlots (slot :: slots) (v :: values) := by
  rw [filledSlots_cons, filledSlots_cons, Slot.behind, String.toList_ofList, List.append_assoc]

/-- **Slots are read back from what they are written as**, wherever that stands. -/
theorem readSlots_written {slots : List Slot} {tail : List Char}
    (hslots : ∀ slot ∈ slots, slot.Legible) (htail : Plain tail) (index position : Nat) :
    readSlots index position (written slots ++ tail) =
      .ok (placedFrom index position slots, tail) := by
  induction slots generalizing index position with
  | nil => exact readSlots_of_plain htail index position
  | cons slot slots ih =>
    obtain ⟨hslot, hslots⟩ := List.forall_mem_cons.mp hslots
    have htext : written (slot :: slots) ++ tail = slot.lead.toList ++
        '{' :: (slot.placeholder.inner.toList ++ '}' :: (written slots ++ tail)) := by
      rw [written_cons]
      simp
    rw [htext, readSlots_pair hslot.lead hslot.inner,
      readPlaceholder_inner hslot.name hslot.named]
    simp only [bind, Except.bind, ih hslots, String.ofList_toList]
    rfl

section Placed

variable (index position : Nat) (slots : List Slot)

theorem map_lead_placedFrom :
    (placedFrom index position slots).map Slot.lead = slots.map Slot.lead := by
  induction slots generalizing index position with
  | nil => rfl
  | cons slot slots ih => rw [placedFrom, List.map_cons, List.map_cons, ih]

/-- What a placeholder is named and what may be selected for it does not depend on its place. -/
theorem map_spec_placedFrom :
    (placedFrom index position slots).map (fun s => (s.placeholder.name, s.placeholder.spec)) =
      slots.map fun s => (s.placeholder.name, s.placeholder.spec) := by
  induction slots generalizing index position with
  | nil => rfl
  | cons slot slots ih => rw [placedFrom, List.map_cons, List.map_cons, ih]

theorem length_placedFrom : (placedFrom index position slots).length = slots.length := by
  simpa using congrArg List.length (map_lead_placedFrom index position slots)

theorem numberedFrom_placedFrom : NumberedFrom index (placedFrom index position slots) := by
  induction slots generalizing index position with
  | nil => trivial
  | cons slot slots ih => exact ⟨rfl, ih _ _⟩

theorem filledSlots_placedFrom (values : List String) :
    filledSlots (placedFrom index position slots) values = filledSlots slots values := by
  have hleads : ∀ xs : List Slot, filledSlots xs values =
      ((xs.map Slot.lead).zipWith (fun lead v => lead.toList ++ v.toList) values).flatten := by
    intro xs
    rw [filledSlots, List.zipWith_map_left]
  rw [hleads, hleads, map_lead_placedFrom]

end Placed

/-- A text of slots without an answer label is read as these slots. -/
theorem parse_written {slots : List Slot} {body : List Char}
    (hslots : ∀ slot ∈ slots, slot.Legible) (hbody : Plain body) (hat : '@' ∉ body.dropLast) :
    parse (String.ofList (written slots ++ body)) =
      .ok { slots := placedFrom 0 0 slots, body := String.ofList body, label := none } := by
  have hsplit : splitLabel body = (body, none) := by
    obtain ⟨hsplit, -⟩ | ⟨front, label, -, rfl, -, hne⟩ := splitLabel_cases body
    · exact hsplit
    · -- with text behind it the `@` would not be the last character
      refine absurd ?_ hat
      rw [List.dropLast_append_of_ne_nil (List.cons_ne_nil _ _), List.dropLast_cons_of_ne_nil hne]
      exact List.mem_append_right _ List.mem_cons_self
  rw [parse, String.toList_ofList, readSlots_written hslots hbody]
  simp only [bind, Except.bind, hsplit]
  rfl

/-! ## Templates that are filled in part -/

/-- **The slots of a template can be written down again.** -/
theorem legible_of_parse {source : String} {t : Template} (h : parse source = .ok t) :
    ∀ slot ∈ t.slots, slot.Legible := by
  have hpieces := (cutFrom_of_parse h).pieces
  have hjustified := justified_readSlots 0 0 source.toList
  rw [readSlots_of_parse h] at hjustified
  obtain ⟨hpaired, hplaced⟩ := hjustified
  intro slot hslot
  obtain ⟨before, behind, htext, -, -⟩ := hplaced.stands slot hslot
  have hpair : source.toList =
      before ++ '{' :: (slot.placeholder.inner.toList ++ '}' :: behind) := by
    rw [htext, toList_expression]
    simp
  have hinner := hpieces.inner slot hslot
  have hname := hpieces.name slot hslot
  have hnamed := hpaired.named before _ behind hpair hinner
  rw [← fst_splitSpec, splitSpec_inner hname] at hnamed
  exact ⟨hpieces.lead slot hslot, hinner, hname, hnamed⟩

/-- A placeholder without a value is filled with its own text. -/
theorem substitute_eq_append {t : Template} (ht : NumberedFrom 0 t.slots) (values : List String) :
    t.substitute values =
      t.substitute (values ++ (t.placeholders.drop values.length).map Placeholder.expression) := by
  have hfill : ∀ slot ∈ t.slots,
      values[slot.placeholder.index]?.getD slot.placeholder.expression =
        (values ++ (t.placeholders.drop values.length).map
          Placeholder.expression)[slot.placeholder.index]?.getD slot.placeholder.expression := by
    intro slot hslot
    obtain ⟨i, hi⟩ := List.getElem?_of_mem hslot
    have hindex : slot.placeholder.index = i := by rw [ht.index_eq hi, Nat.zero_add]
    rw [hindex]
    by_cases hlt : i < values.length
    · rw [List.getElem?_append_left hlt]
    · have hle := Nat.le_of_not_lt hlt
      rw [List.getElem?_append_right hle, List.getElem?_eq_none hle, List.getElem?_map,
        List.getElem?_drop, Nat.add_sub_cancel' hle, placeholders, List.getElem?_map, hi]
      rfl
  have hslots : (t.slots.map fun slot =>
      slot.lead ++ values[slot.placeholder.index]?.getD slot.placeholder.expression) =
      t.slots.map fun slot => slot.lead ++ (values ++ (t.placeholders.drop values.length).map
        Placeholder.expression)[slot.placeholder.index]?.getD slot.placeholder.expression := by
    refine List.map_congr_left fun slot hslot => ?_
    rw [hfill slot hslot]
  rw [substitute, substitute, renderSlots, renderSlots, hslots]

/-- The text of a template whose first placeholders are filled. -/
theorem toList_substitute_append {t : Template} {xs ys : List Slot} {values : List String}
    (ht : NumberedFrom 0 t.slots) (hslots : t.slots = xs ++ ys)
    (hlength : values.length = xs.length) :
    (t.substitute values).toList = filledSlots xs values ++ written ys ++ t.body.toList := by
  have hopen : t.placeholders.drop values.length = ys.map Slot.placeholder := by
    rw [placeholders, hslots, List.map_append, List.drop_append_of_le_length (by simp [hlength]),
      List.drop_eq_nil_of_le (by simp [hlength]), List.nil_append]
  rw [substitute_eq_append ht, hopen, toList_substitute ht (by simp [hslots, hlength]), hslots,
    filledSlots_append hlength, List.map_map]
  rfl

/-- **A template that is filled in part is read as what is still open of it.** -/
theorem parse_substitute {source : String} {t : Template} {xs ys : List Slot} {slot : Slot}
    {values : List String} (ht : parse source = .ok t) (hslots : t.slots = xs ++ slot :: ys)
    (hlength : values.length = xs.length) (hvalues : ∀ v ∈ values, Plain v.toList) :
    parse (t.substitute values) = .ok {
      slots := placedFrom 0 0 (slot.behind (filledSlots xs values) :: ys)
      body := t.body
      label := none } := by
  have hcut := cutFrom_of_parse ht
  have hlegible := legible_of_parse ht
  rw [hslots] at hlegible
  obtain ⟨hxs, hopen⟩ := List.forall_mem_append.mp hlegible
  obtain ⟨hslot, hys⟩ := List.forall_mem_cons.mp hopen
  have hfront : Plain (filledSlots xs values) :=
    plain_filledSlots (fun slot hslot => (hxs slot hslot).lead) hvalues
  have hbody : Plain t.body.toList := fun c hc =>
    hcut.pieces.tail c (List.mem_append_left _ hc)
  have hat : '@' ∉ t.body.toList.dropLast := by
    -- a label would have begun at an `@` that is not in front of it
    have hlabel := hcut.label
    cases h : t.label with
    | none => simpa only [h] using hlabel
    | some label =>
      rw [h] at hlabel
      exact fun hmem => hlabel.1 (List.mem_of_mem_dropLast hmem)
  have htext : t.substitute values = String.ofList
      (written (slot.behind (filledSlots xs values) :: ys) ++ t.body.toList) := by
    apply String.toList_inj.mp
    rw [String.toList_ofList, toList_substitute_append (numberedFrom_of_parse ht) hslots hlength,
      written_behind]
  rw [htext, parse_written (List.forall_mem_cons.mpr ⟨hslot.behind hfront, hys⟩) hbody hat,
    String.ofList_toList]

/-- The other values make of it what all of them make of the template. -/
theorem substitute_placedFrom {t : Template} {xs ys : List Slot} {slot : Slot} {us ws : List String}
    {v : String} (ht : NumberedFrom 0 t.slots) (hslots : t.slots = xs ++ slot :: ys)
    (hus : us.length = xs.length) (hws : ws.length = ys.length) :
    { slots := placedFrom 0 0 (slot.behind (filledSlots xs us) :: ys), body := t.body,
      label := none : Template }.substitute (v :: ws) = t.substitute (us ++ v :: ws) := by
  have hall : (us ++ v :: ws).length = t.slots.length := by simp [hslots, hus, hws]
  apply String.toList_inj.mp
  rw [toList_substitute ht hall,
    toList_substitute (numberedFrom_placedFrom 0 0 _) (by simp [length_placedFrom, hws])]
  dsimp only
  rw [filledSlots_placedFrom, filledSlots_behind, hslots, filledSlots_append hus]

/--
**A template can be filled in stages.** With values for the first placeholders, and no brace in
them, the text is a template again. It has the placeholders that are still open, with their names
and specs, and when the other values are filled in there, this is what filling in all of them at
once gives.
-/
theorem substitute_in_stages {source : String} {t : Template} {values : List String} {k : Nat}
    (ht : parse source = .ok t) (hk : k < t.placeholders.length)
    (hlength : values.length = t.placeholders.length)
    (hvalues : ∀ v ∈ values, '{' ∉ v.toList ∧ '}' ∉ v.toList) :
    ∃ rest, parse (t.substitute (values.take k)) = .ok rest ∧
      rest.placeholders.length = t.placeholders.length - k ∧
      (rest.placeholders.map fun p => (p.name, p.spec)) =
        (t.placeholders.drop k).map (fun p => (p.name, p.spec)) ∧
      rest.substitute (values.drop k) = t.substitute values := by
  have hcount : t.placeholders.length = t.slots.length := List.length_map _
  rw [hcount] at hk hlength
  have hplain : ∀ v ∈ values.take k, Plain v.toList := by
    intro v hv c hc
    obtain ⟨hopen, hclose⟩ := hvalues v (List.mem_of_mem_take hv)
    have hne : c ≠ '{' ∧ c ≠ '}' :=
      ⟨fun h => hopen (h ▸ hc), fun h => hclose (h ▸ hc)⟩
    simpa [isPlain] using hne
  -- the first open slot takes in what is filled before it
  have hslots : t.slots = t.slots.take k ++ t.slots[k] :: t.slots.drop (k + 1) := by
    rw [← List.drop_eq_getElem_cons hk, List.take_append_drop]
  have hfirst : (values.take k).length = (t.slots.take k).length := by simp [hlength]
  have hlast : (values.drop (k + 1)).length = (t.slots.drop (k + 1)).length := by simp [hlength]
  have hparse := parse_substitute ht hslots hfirst hplain
  refine ⟨_, hparse, ?_, ?_, ?_⟩
  · rw [placeholders, List.length_map, length_placedFrom, List.length_cons, List.length_drop,
      hcount]
    omega
  · rw [placeholders, List.map_map, placeholders, ← List.map_drop, List.map_map,
      List.drop_eq_getElem_cons hk]
    exact map_spec_placedFrom 0 0 _
  · have hk' : k < values.length := hlength ▸ hk
    have hvalue := List.drop_eq_getElem_cons hk'
    rw [hvalue, substitute_placedFrom (numberedFrom_of_parse ht) hslots hfirst hlast, ← hvalue,
      List.take_append_drop]

/-- A template with an answer label, a value that looks like one and a value with a colon. -/
theorem substitute_in_stages_label_lookalike :
    let source := "é{A:1/2}+{B}d{C:4<=>6}-1@Hit"
    let values := ["@ü", "x:y", "5"]
    ∃ t rest, parse source = .ok t ∧ 1 < t.placeholders.length ∧
      values.length = t.placeholders.length ∧
      (∀ v ∈ values, '{' ∉ v.toList ∧ '}' ∉ v.toList) ∧
      parse (t.substitute (values.take 1)) = .ok rest ∧
      (rest.placeholders.map fun p => (p.name, p.spec)) = [("B", none), ("C", some "4<=>6")] ∧
      rest.substitute (values.drop 1) = t.substitute values ∧
      t.substitute values = "é@ü+x:yd5-1" := by
  intro source values
  obtain ⟨t, ht, hview⟩ := exists_of_map_ok (by cbv :
    (parse source).map (fun t => (t.placeholders.map fun p => (p.name, p.spec),
      t.substitute values)) =
      .ok ([("A", some "1/2"), ("B", none), ("C", some "4<=>6")], "é@ü+x:yd5-1"))
  obtain ⟨hspecs, htext⟩ := Prod.mk.inj hview
  have hlength : t.placeholders.length = 3 := by simpa using congrArg List.length hspecs
  have hvalues : ∀ v ∈ values, '{' ∉ v.toList ∧ '}' ∉ v.toList := by decide
  have hmany : values.length = t.placeholders.length := hlength.symm
  have hone : 1 < t.placeholders.length := by omega
  obtain ⟨rest, hrest, -, hopen, hstages⟩ := substitute_in_stages ht hone hmany hvalues
  rw [List.map_drop, hspecs] at hopen
  exact ⟨t, rest, ht, hone, hmany, hvalues, hrest, hopen, hstages, htext⟩

end Template

end RollMenu
