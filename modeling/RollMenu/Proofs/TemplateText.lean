import Mathlib.Data.List.TakeWhile
import RollMenu.Proofs.Substitution

/-!
# The text of a template

Reading cuts a template into pieces, at its braces and at the `@` of the answer label.
Nothing is lost by that: with the placeholders put back, the pieces are the text that was
read. And it is cut at every brace, so no piece holds one. What the placeholders are
filled with then decides alone whether the filled template has a brace.
-/

namespace RollMenu

/-- Where taking elements stops, there is one that is not taken. -/
theorem eq_append_of_dropWhile {α : Type} {p : α → Bool} {xs rest : List α} {x : α}
    (h : xs.dropWhile p = x :: rest) : xs = xs.takeWhile p ++ x :: rest ∧ p x = false := by
  refine ⟨by rw [← h, List.takeWhile_append_dropWhile], ?_⟩
  have hhead := List.head?_dropWhile_not p xs
  rw [h] at hhead
  simpa using hhead

namespace Template

theorem eq_brace_of_isPlain {c : Char} (h : isPlain c = false) : c = '{' ∨ c = '}' := by
  simpa [isPlain, Classical.or_iff_not_imp_left] using h

/-- A text in which every character is plain has no brace. -/
def Plain (cs : List Char) : Prop := ∀ c ∈ cs, isPlain c = true

theorem plain_takeWhile (cs : List Char) : Plain (cs.takeWhile isPlain) :=
  fun _ hc => List.mem_takeWhile_imp hc

/-! ## Placeholders -/

/-- What stands between the braces is split at the first colon. -/
theorem splitSpec_cases (inner : List Char) :
    (splitSpec inner = (inner, none) ∧ ':' ∉ inner) ∨
    ∃ name spec, splitSpec inner = (name, some spec) ∧ inner = name ++ ':' :: spec ∧
      ':' ∉ name := by
  unfold splitSpec
  split
  · rename_i hdrop
    refine Or.inl ⟨rfl, fun hmem => ?_⟩
    simpa using List.dropWhile_eq_nil_iff.mp hdrop _ hmem
  · rename_i c spec hdrop
    obtain ⟨hinner, hc⟩ := eq_append_of_dropWhile hdrop
    obtain rfl : c = ':' := by simpa using hc
    exact Or.inr ⟨_, spec, rfl, hinner, fun hmem => by simpa using List.mem_takeWhile_imp hmem⟩

/-- A placeholder that is read has everything that stood between the braces, and its name ends at
the first colon. -/
theorem inner_of_readPlaceholder {index start : Nat} {inner : List Char} {p : Placeholder}
    (h : readPlaceholder index start inner = .ok p) :
    p.inner.toList = inner ∧ ':' ∉ p.name.toList := by
  unfold readPlaceholder at h
  dsimp only at h
  split at h
  · cases h
  split at h
  · cases h
  · obtain rfl := Except.ok.inj h
    obtain ⟨hsplit, hcolon⟩ | ⟨name, spec, hsplit, rfl, hcolon⟩ := splitSpec_cases inner
    · rw [hsplit]
      exact ⟨String.toList_ofList, by rwa [String.toList_ofList]⟩
    · rw [hsplit]
      refine ⟨?_, by rwa [String.toList_ofList]⟩
      simp [Placeholder.inner]

theorem toList_expression (p : Placeholder) :
    p.expression.toList = '{' :: (p.inner.toList ++ ['}']) := by
  simp [Placeholder.expression]

/-! ## Slots -/

/-- A text cut at its braces. -/
structure Pieces (cs : List Char) (slots : List Slot) (tail : List Char) : Prop where
  /-- With the placeholders as they are written, the pieces make up the text. -/
  text : cs = filledSlots slots (slots.map fun slot => slot.placeholder.expression) ++ tail
  lead : ∀ slot ∈ slots, Plain slot.lead.toList
  inner : ∀ slot ∈ slots, Plain slot.placeholder.inner.toList
  /-- A name ends at the first colon. -/
  name : ∀ slot ∈ slots, ':' ∉ slot.placeholder.name.toList
  tail : Plain tail

theorem Pieces.nil {tail : List Char} (h : Plain tail) : Pieces tail [] tail where
  text := by simp [filledSlots]
  lead := by simp
  inner := by simp
  name := by simp
  tail := h

theorem Pieces.cons {lead rest tail : List Char} {p : Placeholder} {slots : List Slot}
    (hlead : Plain lead) (hinner : Plain p.inner.toList) (hname : ':' ∉ p.name.toList)
    (h : Pieces rest slots tail) :
    Pieces (lead ++ '{' :: (p.inner.toList ++ '}' :: rest)) (⟨String.ofList lead, p⟩ :: slots)
      tail where
  text := by
    rw [List.map_cons, filledSlots_cons, toList_expression, h.text]
    simp
  lead := List.forall_mem_cons.mpr ⟨by rwa [String.toList_ofList], h.lead⟩
  inner := List.forall_mem_cons.mpr ⟨hinner, h.inner⟩
  name := List.forall_mem_cons.mpr ⟨hname, h.name⟩
  tail := h.tail

/-- **Reading slots cuts the text at its braces.** -/
theorem pieces_of_readSlots {index position : Nat} {cs tail : List Char} {slots : List Slot}
    (h : readSlots index position cs = .ok (slots, tail)) : Pieces cs slots tail := by
  fun_induction readSlots index position cs generalizing slots tail with
  | @case1 index position cs lead hopen =>
    obtain ⟨rfl, rfl⟩ := Prod.mk.inj (Except.ok.inj h).symm
    have hall : cs = lead := by
      have happend := List.takeWhile_append_dropWhile (p := isPlain) (l := cs)
      rw [hopen, List.append_nil] at happend
      exact happend.symm
    rw [hall]
    exact .nil (plain_takeWhile cs)
  | case2 | case3 | case4 => cases h
  | @case5 index position cs lead start o behind ho hopen inner d rest hd hclose hlt ih =>
    obtain ⟨p, hp, hslots⟩ := exists_of_bind_ok h
    obtain ⟨⟨more, tail'⟩, hmore, hresult⟩ := exists_of_bind_ok hslots
    obtain ⟨rfl, rfl⟩ := Prod.mk.inj (Except.ok.inj hresult).symm
    obtain ⟨hcs, hobrace⟩ := eq_append_of_dropWhile hopen
    obtain ⟨hbehind, hdbrace⟩ := eq_append_of_dropWhile hclose
    obtain rfl := (eq_brace_of_isPlain hobrace).resolve_right ho
    obtain rfl := (eq_brace_of_isPlain hdbrace).resolve_left hd
    obtain ⟨hinner, hname⟩ := inner_of_readPlaceholder hp
    rw [hcs, hbehind]
    have hplain : Plain p.inner.toList := hinner ▸ plain_takeWhile behind
    have hpieces := Pieces.cons (plain_takeWhile cs) hplain hname (ih p hmore)
    rwa [hinner] at hpieces

/-! ## Templates -/

/-- The text behind the last placeholder is split at the first `@`, unless nothing follows it. -/
theorem splitLabel_cases (tail : List Char) :
    (splitLabel tail = (tail, none) ∧ '@' ∉ tail.dropLast) ∨
    ∃ body label, splitLabel tail = (body, some label) ∧ tail = body ++ '@' :: label ∧
      '@' ∉ body ∧ label ≠ [] := by
  unfold splitLabel
  split
  · rename_i hdrop
    refine Or.inl ⟨rfl, fun hmem => ?_⟩
    simpa using List.dropWhile_eq_nil_iff.mp hdrop _ ((List.dropLast_sublist _).subset hmem)
  · rename_i c hdrop
    refine Or.inl ⟨rfl, fun hmem => ?_⟩
    rw [(eq_append_of_dropWhile hdrop).1, List.dropLast_concat] at hmem
    simpa using List.mem_takeWhile_imp hmem
  · rename_i c label hne hdrop
    obtain ⟨htail, hc⟩ := eq_append_of_dropWhile hdrop
    obtain rfl : c = '@' := by simpa using hc
    refine Or.inr ⟨_, label, rfl, htail, fun hmem => by simpa using List.mem_takeWhile_imp hmem, ?_⟩
    rintro rfl
    exact hne rfl

/-- A template cut out of its source: at the braces, and at the `@` of the answer label. -/
structure CutFrom (source : String) (t : Template) : Prop where
  pieces : Pieces source.toList t.slots (t.body.toList ++ t.labelText.toList)
  /-- A label starts at the first `@`, and it is not empty. Without a label there is no `@`, or
  it is the last character. -/
  label : match t.label with
    | some label => '@' ∉ t.body.toList ∧ label ≠ ""
    | none => '@' ∉ t.body.toList.dropLast

/-- **A template that is read is cut out of its source.** -/
theorem cutFrom_of_parse {source : String} {t : Template} (h : parse source = .ok t) :
    t.CutFrom source := by
  obtain ⟨⟨slots, tail⟩, hread, hresult⟩ := exists_of_bind_ok h
  have hpieces := pieces_of_readSlots hread
  obtain rfl := Except.ok.inj hresult
  obtain ⟨hsplit, hat⟩ | ⟨body, label, hsplit, rfl, hat, hne⟩ := splitLabel_cases tail
  · constructor
    · simpa [hsplit, labelText] using hpieces
    · simpa [hsplit] using hat
  · constructor
    · simpa [hsplit, labelText] using hpieces
    · simpa [hsplit] using ⟨hat, hne⟩

theorem plain_filledSlots {slots : List Slot} {values : List String}
    (hlead : ∀ slot ∈ slots, Plain slot.lead.toList)
    (hvalues : ∀ v ∈ values, Plain v.toList) : Plain (filledSlots slots values) := by
  intro c hc
  obtain ⟨piece, hpiece, hmem⟩ := List.mem_flatten.mp hc
  obtain ⟨i, hi, rfl⟩ := List.getElem_of_mem hpiece
  rw [List.getElem_zipWith] at hmem
  rcases List.mem_append.mp hmem with hmem | hmem
  · exact hlead _ (List.getElem_mem _) c hmem
  · exact hvalues _ (List.getElem_mem _) c hmem

/-- **Filled with texts that have no brace, a template has none.** -/
theorem CutFrom.plain {source : String} {t : Template} {values : List String}
    (h : t.CutFrom source) (hvalues : ∀ v ∈ values, Plain v.toList) :
    Plain (filledSlots t.slots values ++ t.body.toList) :=
  List.forall_mem_append.mpr ⟨plain_filledSlots h.pieces.lead hvalues, fun c hc =>
    h.pieces.tail c (List.mem_append_left _ hc)⟩

/-- What is written in a template has no brace. -/
theorem plain_of_writtenIn {source text : String} (h : Text.WrittenIn (Allowed source) text) :
    Plain text.toList := by
  intro c hc
  obtain ⟨-, hplain⟩ | hdigit | rfl := h.2 c hc
  · exact hplain
  · have hne : c ≠ '{' ∧ c ≠ '}' := by
      constructor <;> rintro rfl <;> cases hdigit
    simpa [isPlain] using hne
  · rfl

end Template

end RollMenu
