import Mathlib
import RollMenu.Proofs.NextPlaceholder
import RollMenu.Proofs.Shown
import RollMenu.Proofs.TemplateText

/-!
# The invariant of compiled menus

Clicks, button ids and the search work on a menu and never look at the spec of a placeholder
again. They take for granted that an id names one choice, that a value is never empty, that no
value of a clean template can break an id apart, and that a pointer leads somewhere. None of this
is checked where it is used.

`WellFormed` collects these facts. They hold of every menu that a template compiles to, whatever
its specs look like: blank entries, an `@` with nothing on one side, a lone `!`, a cap of zero and
a spec in no known format all end in choices of this shape or in no menu.
-/

namespace RollMenu

/-- A text that can stand on a button and in the id of one: there is something in it, it opens and
closes no placeholder, and it has a separator of ids only if the source has. -/
structure Text.Presentable (source text : String) : Prop where
  ne_empty : text ≠ ""
  no_brace : '{' ∉ text.toList ∧ '}' ∉ text.toList
  no_fieldSeparator : fieldSeparator ∉ source.toList → fieldSeparator ∉ text.toList
  no_selectionSeparator : selectionSeparator ∉ source.toList → selectionSeparator ∉ text.toList

/-- What is written in a template is presentable. -/
theorem Text.WrittenIn.presentable {source text : String}
    (h : Text.WrittenIn (Template.Allowed source) text) : Text.Presentable source text := by
  have hplain := Template.plain_of_writtenIn h
  have hreserved : ∀ c, Validation.isReserved c = true → c ∉ source.toList → c ∉ text.toList := by
    intro c hreserved hsource hc
    rcases h.2 c hc with ⟨hmem, -⟩ | hnumeral
    · exact hsource hmem
    · rw [Validation.isReserved_of_isNumeral hnumeral] at hreserved
      cases hreserved
  refine ⟨h.1, ⟨fun hc => ?_, fun hc => ?_⟩, hreserved fieldSeparator rfl,
    hreserved selectionSeparator rfl⟩
  · cases hplain '{' hc
  · cases hplain '}' hc

/-- The choices of a parameter that is one of `count`. -/
structure Parameter.WellFormed (p : Parameter) (source : String) (count : Nat) : Prop where
  /-- There is something to select. -/
  choices_ne_nil : p.choices ≠ []
  /-- The ids are `id1`, `id2`, … in order. -/
  ids_eq : p.choices.map Choice.id =
    (List.range p.choices.length).map fun i => "id" ++ (i + 1).repr
  nodup_ids : (p.choices.map Choice.id).Nodup
  /-- An id names its own choice, whatever the values are. -/
  choice_id : ∀ c ∈ p.choices, p.choice c.id = some c
  value : ∀ c ∈ p.choices, Text.Presentable source c.value
  label : ∀ c ∈ p.choices, Text.Presentable source c.label
  /-- A choice points to nothing or to a parameter. -/
  next_lt : ∀ c ∈ p.choices, ∀ i, c.next = some i → i < count

namespace Menu

/-- A menu with one parameter for each placeholder of the source, in the same order. -/
structure WellFormed (m : Menu) (source : String) : Prop where
  template : Template.parse source = .ok m.template
  placeholders : m.parameters.map Parameter.placeholder = m.template.placeholders
  parameter : ∀ p ∈ m.parameters, p.WellFormed source m.size

variable {m : Menu} {limits : Limits} {source : String} {parameter : Parameter} {c : Choice}

/-- **Values and labels are written in the source.** -/
theorem writtenIn_of_compile (hm : compile limits source = .ok m) (hp : parameter ∈ m.parameters)
    (hc : c ∈ parameter.choices) :
    Text.WrittenIn (Template.Allowed source) c.value ∧
      Text.WrittenIn (Template.Allowed source) c.label := by
  obtain ⟨hparse, -, hexpand⟩ := compile_ok hm
  obtain ⟨placeholder, hplaceholder, hparameter⟩ := exists_of_forall₂_of_mem hexpand hp
  obtain ⟨offers, -, hchoices, hoffers⟩ :=
    exists_offers_of_expand hparse hplaceholder hparameter
  rw [hchoices] at hc
  obtain ⟨o, ho, hvalue, hlabel, -⟩ := mem_link_number hc
  rw [hvalue, hlabel]
  exact ⟨(hoffers o ho).value, (hoffers o ho).label⟩

/--
**Every compiled menu is well formed.** If a template compiles, under any limits, then the menu has
one parameter for each placeholder of it, in the same order. Each parameter has at least one
choice. The ids of its choices are `id1`, `id2`, … in order, so they differ, and looking up the id
of a choice finds the choice. Values and labels are not empty, have no brace, and have a separator
of ids only if the template has it. And whatever a choice points to is a parameter of the menu.
-/
theorem wellFormed_of_compile (hm : compile limits source = .ok m) : m.WellFormed source := by
  obtain ⟨hparse, -⟩ := compile_ok hm
  refine ⟨hparse, (aligned_of_compile hm).placeholders, fun p hp => ?_⟩
  have hcompiled := (compiledFrom_of_compile hm).parameter p hp
  have hnumbered := hcompiled.numbered
  refine ⟨hcompiled.choices_ne_nil, hnumbered, hnumbered.nodup, fun c hc => hnumbered.choice_id hc,
    fun c hc => (writtenIn_of_compile hm hp hc).1.presentable,
    fun c hc => (writtenIn_of_compile hm hp hc).2.presentable, fun c hc j hnext => ?_⟩
  obtain ⟨i, hget⟩ := List.mem_iff_getElem?.mp hp
  obtain ⟨next, hj⟩ := exists_of_next hm hget hc hnext
  exact (List.getElem?_eq_some_iff.mp hj).1

/-- Entries that are blank, that have nothing on one side of an `@` or two of them, and labels that
are nothing but a mark; a range with no room, one that ends twice, and no spec at all. -/
theorem wellFormed_of_compile_odd_specs :
    let source := "{A: /a@/@b/!/x@!/y@!z/ p@q@r }+{B:5<=>1}+{C:1<=>2<=>3}d{D}"
    ∃ m, compile { rangeCap := 0, defaultChoices := 2 } source = .ok m ∧ m.WellFormed source ∧
      m.parameters.map (fun p => p.choices.map fun c => (c.value, c.label, c.next)) =
        [[("a@", "a@", some 1), ("@b", "@b", some 1), ("!", "!", some 1), ("x", "!", some 1),
            ("y", "z", none), (" p@q@r ", " p@q@r ", some 1)],
          [("5", "5", some 2)], [("1", "1", some 3), ("2", "2", some 3)],
          [("1", "1", none), ("2", "2", none)]] := by
  intro source
  obtain ⟨m, hm, hview⟩ := exists_of_map_ok (by cbv :
    (compile { rangeCap := 0, defaultChoices := 2 } source).map (fun m =>
      m.parameters.map fun p => p.choices.map fun c => (c.value, c.label, c.next)) = .ok
        [[("a@", "a@", some 1), ("@b", "@b", some 1), ("!", "!", some 1), ("x", "!", some 1),
            ("y", "z", none), (" p@q@r ", " p@q@r ", some 1)],
          [("5", "5", some 2)], [("1", "1", some 3), ("2", "2", some 3)],
          [("1", "1", none), ("2", "2", none)]])
  exact ⟨m, hm, wellFormed_of_compile hm, hview⟩

end Menu

end RollMenu
