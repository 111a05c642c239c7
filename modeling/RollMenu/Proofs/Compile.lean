import Mathlib.Data.List.Forall2
import Mathlib.Data.List.Nodup
import RollMenu.Menu

/-!
# What compiling a template guarantees

Whatever works on a compiled menu relies on two facts about its choices.

* They are **numbered**: the ids of a parameter's choices are `id1`, `id2`, … in order.
  So an id names one choice.
* Their values and labels are **written in the template**: none is empty, and each of
  their characters is a plain character of the template or belongs to a numeral. So a
  value holds a separator of wire ids only if the template does.

Both hold of a single expanded placeholder, and compiling only collects those.
-/

namespace RollMenu

/-! ## Steps that succeed -/

/-- A sequence of two steps that succeeds succeeds in both. -/
theorem exists_of_bind_ok {α β ε : Type} {x : Except ε α} {f : α → Except ε β} {b : β}
    (h : x >>= f = .ok b) : ∃ a, x = .ok a ∧ f a = .ok b := by
  cases x with
  | error e => cases h
  | ok a => exact ⟨a, rfl, h⟩

theorem exists_of_map_ok {α β ε : Type} {x : Except ε α} {f : α → β} {b : β}
    (h : x.map f = .ok b) : ∃ a, x = .ok a ∧ f a = b := by
  cases x with
  | error e => cases h
  | ok a => exact ⟨a, rfl, Except.ok.inj h⟩

/-- A step that is tried on a list and succeeds succeeds on every element. -/
theorem forall₂_of_mapM_ok {α β ε : Type} {f : α → Except ε β} {xs : List α} {ys : List β}
    (h : xs.mapM f = .ok ys) : List.Forall₂ (fun x y => f x = .ok y) xs ys := by
  induction xs generalizing ys with
  | nil =>
    obtain rfl : ys = [] := (Except.ok.inj h).symm
    exact List.Forall₂.nil
  | cons x xs ih =>
    rw [List.mapM_cons] at h
    obtain ⟨y, hy, h⟩ := exists_of_bind_ok h
    obtain ⟨rest, hrest, h⟩ := exists_of_bind_ok h
    obtain rfl : ys = y :: rest := (Except.ok.inj h).symm
    exact List.Forall₂.cons hy (ih hrest)

/-- In a list whose elements are told apart by `f`, a search for what `f` makes of an element finds
the element. -/
theorem find?_of_nodup_map {α : Type} {f : α → String} {xs : List α} {x : α}
    (h : (xs.map f).Nodup) (hx : x ∈ xs) : xs.find? (fun y => f y == f x) = some x := by
  induction xs with
  | nil => cases hx
  | cons y ys ih =>
    obtain ⟨hy, hys⟩ := List.nodup_cons.mp h
    rcases List.mem_cons.mp hx with rfl | hx
    · simp
    · -- what comes before is something else, so the search does not stop there
      have hne : f y ≠ f x := fun he => hy (he ▸ List.mem_map_of_mem hx)
      simp [hne, ih hys hx]

/-! ## Two lists side by side -/

/-- What stands on the right of a relation has its partner on the left. -/
theorem exists_of_forall₂_of_mem {α β : Type} {R : α → β → Prop} {xs : List α} {ys : List β} {y : β}
    (h : List.Forall₂ R xs ys) (hy : y ∈ ys) : ∃ x ∈ xs, R x y := by
  induction h with
  | nil => cases hy
  | cons hxy _ ih =>
    rcases List.mem_cons.mp hy with rfl | hy
    · exact ⟨_, List.mem_cons_self, hxy⟩
    · obtain ⟨x, hx, hR⟩ := ih hy
      exact ⟨x, List.mem_cons_of_mem _ hx, hR⟩

theorem exists_forall₂ {α β : Type} {R : α → β → Prop} {ys : List β} (h : ∀ y ∈ ys, ∃ x, R x y) :
    ∃ xs, List.Forall₂ R xs ys := by
  induction ys with
  | nil => exact ⟨[], .nil⟩
  | cons y ys ih =>
    obtain ⟨⟨x, hx⟩, hys⟩ := List.forall_mem_cons.mp h
    obtain ⟨xs, hxs⟩ := ih hys
    exact ⟨x :: xs, .cons hx hxs⟩

theorem forall₂_take_concat_iff {α β : Type} {R : α → β → Prop} {xs : List α} {x : α}
    {ys : List β} :
    List.Forall₂ R (xs ++ [x]) (ys.take (xs.length + 1)) ↔
      List.Forall₂ R xs (ys.take xs.length) ∧ ∃ y, ys[xs.length]? = some y ∧ R x y := by
  induction xs generalizing ys with
  | nil => cases ys <;> simp
  | cons x' xs ih => cases ys <;> simp [ih, and_assoc]

/-! ## Specs are read out of the template -/

namespace Template

theorem mem_of_mem_splitSpec {inner spec : List Char} (h : (splitSpec inner).2 = some spec)
    {c : Char} (hc : c ∈ spec) : c ∈ inner := by
  unfold splitSpec at h
  split at h
  · cases h
  · rename_i hdrop
    obtain rfl := Option.some.inj h
    refine (List.dropWhile_sublist (p := (· != ':'))).subset ?_
    rw [hdrop]
    exact List.mem_cons_of_mem _ hc

theorem mem_of_readPlaceholder {index start : Nat} {inner : List Char} {p : Placeholder}
    {spec : String} (h : readPlaceholder index start inner = .ok p) (hs : p.spec = some spec)
    {c : Char} (hc : c ∈ spec.toList) : c ∈ inner := by
  unfold readPlaceholder at h
  dsimp only at h
  split at h
  · cases h
  · split at h
    · cases h
    · obtain rfl := Except.ok.inj h
      obtain ⟨text, htext, rfl⟩ := Option.map_eq_some_iff.mp hs
      rw [String.toList_ofList] at hc
      exact mem_of_mem_splitSpec htext hc

/-- **A spec is made of plain characters of the template.** -/
theorem mem_of_readSlots {index position : Nat} {cs tail : List Char} {slots : List Slot}
    (h : readSlots index position cs = .ok (slots, tail)) {slot : Slot} (hslot : slot ∈ slots)
    {spec : String} (hspec : slot.placeholder.spec = some spec) {c : Char}
    (hc : c ∈ spec.toList) : c ∈ cs ∧ isPlain c = true := by
  fun_induction readSlots index position cs generalizing slots tail with
  | case1 =>
    obtain ⟨rfl, rfl⟩ := Prod.mk.inj (Except.ok.inj h).symm
    cases hslot
  | case2 | case3 | case4 => cases h
  | @case5 index position cs lead start o behind ho hopen inner d rest hd hclose hlt ih =>
    obtain ⟨p, hp, h⟩ := exists_of_bind_ok h
    obtain ⟨⟨more, tail'⟩, hmore, h⟩ := exists_of_bind_ok h
    obtain ⟨rfl, rfl⟩ := Prod.mk.inj (Except.ok.inj h).symm
    have hbehind : ∀ c ∈ behind, c ∈ cs := by
      intro c hc
      refine (List.dropWhile_sublist (p := isPlain)).subset ?_
      rw [hopen]
      exact List.mem_cons_of_mem _ hc
    rcases List.mem_cons.mp hslot with rfl | hslot
    · -- the placeholder read here: its spec lies before the next brace
      have hinner := mem_of_readPlaceholder hp hspec hc
      exact ⟨hbehind c ((List.takeWhile_sublist _).subset hinner),
        List.all_eq_true.mp List.all_takeWhile c hinner⟩
    · obtain ⟨hrest, hplain⟩ := ih p hmore hslot
      refine ⟨hbehind c ((List.dropWhile_sublist (p := isPlain)).subset ?_), hplain⟩
      rw [hclose]
      exact List.mem_cons_of_mem _ hrest

theorem mem_of_parse {source : String} {t : Template} (h : parse source = .ok t)
    {p : Placeholder} (hp : p ∈ t.placeholders) {spec : String} (hspec : p.spec = some spec)
    {c : Char} (hc : c ∈ spec.toList) : c ∈ source.toList ∧ isPlain c = true := by
  obtain ⟨⟨slots, tail⟩, hread, h⟩ := exists_of_bind_ok h
  obtain rfl := Except.ok.inj h
  obtain ⟨slot, hslot, rfl⟩ := List.mem_map.mp hp
  exact mem_of_readSlots hread hslot hspec hc

end Template

/-! ## What a spec offers -/

/-- A text that is not empty and has allowed characters only. -/
def Text.WrittenIn (allowed : Char → Prop) (text : String) : Prop :=
  text ≠ "" ∧ ∀ c ∈ text.toList, allowed c

theorem Text.WrittenIn.mono {allowed allowed' : Char → Prop} {text : String}
    (h : Text.WrittenIn allowed text) (himp : ∀ c, allowed c → allowed' c) :
    Text.WrittenIn allowed' text :=
  ⟨h.1, fun c hc => himp c (h.2 c hc)⟩

theorem Text.writtenIn_ofList {allowed : Char → Prop} {cs : List Char} (hne : cs ≠ [])
    (h : ∀ c ∈ cs, allowed c) : Text.WrittenIn allowed (String.ofList cs) := by
  refine ⟨fun he => hne ?_, by rwa [String.toList_ofList]⟩
  rw [← String.toList_ofList (l := cs), he]
  rfl

/-- The characters of numerals. -/
def Decimal.IsNumeral (c : Char) : Prop := c.isDigit = true ∨ c = '-'

theorem Decimal.writtenIn_repr (n : Nat) : Text.WrittenIn Decimal.IsNumeral n.repr := by
  refine ⟨Nat.repr_ne_empty, fun c hc => Or.inl ?_⟩
  rw [Nat.toList_repr] at hc
  exact Nat.isDigit_of_mem_toDigits (b := 10) (by decide) (by decide) hc

theorem Decimal.writtenIn_ofInt (i : Int) : Text.WrittenIn Decimal.IsNumeral (Decimal.ofInt i) := by
  cases i with
  | ofNat n => exact Decimal.writtenIn_repr n
  | negSucc n =>
    have h := Decimal.writtenIn_repr (n + 1)
    refine ⟨fun he => h.1 ?_, fun c hc => ?_⟩
    · exact (String.append_eq_empty_iff.mp he).2
    · rw [Decimal.ofInt, String.toList_append] at hc
      rcases List.mem_append.mp hc with hc | hc
      · exact Or.inr (List.mem_singleton.mp hc)
      · exact h.2 c hc

/-- No part of a split text has a character that the text does not have. -/
theorem mem_of_mem_splitOn {sep c : Char} {part cs : List Char} (hp : part ∈ cs.splitOn sep)
    (hc : c ∈ part) : c ∈ cs := by
  -- by induction on the parts, of which the text is made up again
  have hjoin : [sep].intercalate (cs.splitOn sep) = cs := List.intercalate_splitOn sep
  generalize cs.splitOn sep = parts at hp hjoin
  subst hjoin
  induction parts with
  | nil => cases hp
  | cons p ps ih =>
    by_cases hps : ps = []
    · subst hps
      obtain rfl := List.mem_singleton.mp hp
      rwa [List.intercalate_singleton]
    · rw [List.intercalate_cons_of_ne_nil hps]
      rcases List.mem_cons.mp hp with rfl | hp
      · exact List.mem_append_left _ (List.mem_append_left _ hc)
      · exact List.mem_append_right _ (ih hp)

/-- The value and the label of an offer are not empty and have allowed characters only. -/
structure Offer.WrittenIn (allowed : Char → Prop) (o : Offer) : Prop where
  value : Text.WrittenIn allowed o.value
  label : Text.WrittenIn allowed o.label

theorem Offer.WrittenIn.mono {allowed allowed' : Char → Prop} {o : Offer}
    (h : o.WrittenIn allowed) (himp : ∀ c, allowed c → allowed' c) : o.WrittenIn allowed' :=
  ⟨h.value.mono himp, h.label.mono himp⟩

theorem Offer.writtenIn_plain {allowed : Char → Prop} {text : String}
    (h : Text.WrittenIn allowed text) : (Offer.plain text).WrittenIn allowed :=
  ⟨h, h⟩

/-- The value and the label of an entry are cut out of the entry. -/
theorem Listing.writtenIn_entry {text : List Char} (hne : text ≠ []) :
    (Listing.entry text).WrittenIn (· ∈ text) := by
  have hpart : ∀ {part c cs}, part ∈ text.splitOn '@' → (∀ d ∈ c :: cs, d ∈ part) →
      Text.WrittenIn (· ∈ text) (String.ofList (c :: cs)) := fun hpart hcs =>
    Text.writtenIn_ofList (List.cons_ne_nil _ _) fun d hd => mem_of_mem_splitOn hpart (hcs d hd)
  unfold Listing.entry
  split
  · -- the label stands behind a mark
    rename_i v vs l ls hsplit
    exact ⟨hpart (hsplit ▸ List.mem_cons_self) fun _ hd => hd,
      hpart (hsplit ▸ List.mem_cons_of_mem _ List.mem_cons_self) fun _ hd =>
        List.mem_cons_of_mem _ hd⟩
  · rename_i v vs l ls _ hsplit
    exact ⟨hpart (hsplit ▸ List.mem_cons_self) fun _ hd => hd,
      hpart (hsplit ▸ List.mem_cons_of_mem _ List.mem_cons_self) fun _ hd => hd⟩
  · exact Offer.writtenIn_plain (Text.writtenIn_ofList hne fun _ hc => hc)

/-- The characters in which the values and labels of a spec are written. -/
def Spec.Allowed (spec : Option String) (c : Char) : Prop :=
  (∃ text, spec = some text ∧ c ∈ text.toList) ∨ Decimal.IsNumeral c

/-- **A built-in format offers texts out of the spec or numerals.** -/
theorem Spec.writtenIn_offers {format : SpecFormat} (hf : format ∈ Spec.builtin) {limits : Limits}
    {text : String} {offers : List Offer} (h : format.offers limits text = some offers) :
    ∀ o ∈ offers, o.WrittenIn (Spec.Allowed (some text)) := by
  intro o ho
  rcases List.mem_pair.mp hf with rfl | rfl
  · -- a range is written out in numerals
    obtain ⟨⟨low, high⟩, _, rfl⟩ := Option.map_eq_some_iff.mp h
    obtain ⟨n, _, rfl⟩ := List.mem_map.mp ho
    exact Offer.writtenIn_plain ((Decimal.writtenIn_ofInt n).mono fun c hc => Or.inr hc)
  · -- a list is cut into entries, none of which is blank
    unfold Listing.format at h
    dsimp only at h
    split at h
    · cases h
    · obtain rfl := Option.some.inj h
      obtain ⟨entry, hentry, rfl⟩ := List.mem_map.mp ho
      obtain ⟨htaken, hblank⟩ := List.mem_filter.mp hentry
      have hne : entry ≠ [] := by
        rintro rfl
        simp [Text.Blank] at hblank
      have hfrom : ∀ c ∈ entry, Spec.Allowed (some text) c := fun c hc =>
        Or.inl ⟨text, rfl, mem_of_mem_splitOn (List.mem_of_mem_take htaken) hc⟩
      exact (Listing.writtenIn_entry hne).mono hfrom

/-- **What a placeholder offers is the numbering of such offers.** -/
theorem Spec.choices_ok {limits : Limits} {expression : String} {spec : Option String}
    {choices : List Choice} (h : Spec.choices Spec.builtin limits expression spec = .ok choices) :
    ∃ offers, choices = Choice.number offers ∧
      ∀ o ∈ offers, o.WrittenIn (Spec.Allowed spec) := by
  unfold Spec.choices at h
  split at h
  · -- without a usable spec the values are counted
    refine ⟨_, (Except.ok.inj h).symm, fun o ho => ?_⟩
    obtain ⟨i, _, rfl⟩ := List.mem_map.mp ho
    exact Offer.writtenIn_plain ((Decimal.writtenIn_repr _).mono fun c hc => Or.inr hc)
  · cases h
  · rename_i offers hoffers
    obtain ⟨text, rfl, hoffers⟩ := Option.bind_eq_some_iff.mp hoffers
    obtain ⟨format, hformat, hoffers⟩ := Option.map_eq_some_iff.mp hoffers
    exact ⟨offers, (Except.ok.inj h).symm,
      Spec.writtenIn_offers (List.mem_of_find?_eq_some hformat) hoffers⟩

/-! ## Compiled menus -/

@[simp] theorem Choice.length_number (offers : List Offer) :
    (Choice.number offers).length = offers.length := by
  simp [Choice.number]

theorem Choice.idAt_injective : Function.Injective Choice.idAt := by
  intro i j h
  have hrepr : i.repr = j.repr := (String.append_right_inj _).mp h
  have hdigits := congrArg (fun text : String => Decimal.digits? text.toList) hrepr
  simpa only [Nat.toList_repr, Decimal.digits?_toDigits, Option.some.injEq] using hdigits

theorem Choice.mem_idAt {i : Nat} {c : Char} (h : c ∈ (Choice.idAt i).toList) :
    c = 'i' ∨ c = 'd' ∨ Decimal.IsNumeral c := by
  rw [Choice.idAt, String.toList_append] at h
  rcases List.mem_append.mp h with h | h
  · rcases List.mem_pair.mp h with rfl | rfl
    · exact Or.inl rfl
    · exact Or.inr (Or.inl rfl)
  · exact Or.inr (Or.inr ((Decimal.writtenIn_repr i).2 c h))

namespace Parameter

/-- The ids of the choices are `id1`, `id2`, … in order. -/
def Numbered (p : Parameter) : Prop :=
  p.choices.map Choice.id = (List.range p.choices.length).map fun i => Choice.idAt (i + 1)

variable {p : Parameter} {c : Choice}

theorem Numbered.nodup (hp : p.Numbered) : (p.choices.map Choice.id).Nodup := by
  rw [hp]
  refine List.Nodup.map ?_ List.nodup_range
  intro i j h
  have := Choice.idAt_injective h
  omega

theorem Numbered.exists_idAt (hp : p.Numbered) (hc : c ∈ p.choices) :
    ∃ i, c.id = Choice.idAt i := by
  have hid : c.id ∈ p.choices.map Choice.id := List.mem_map_of_mem hc
  rw [hp] at hid
  obtain ⟨i, _, hi⟩ := List.mem_map.mp hid
  exact ⟨i + 1, hi.symm⟩

/-- **An id names one choice.** -/
theorem Numbered.choice_id (hp : p.Numbered) (hc : c ∈ p.choices) : p.choice c.id = some c := by
  rw [Parameter.choice, find?_of_nodup_map hp.nodup hc]
  rfl

/-- A value names one choice if no other choice has it. -/
theorem choiceByValue_of_nodup (hp : (p.choices.map Choice.value).Nodup) (hc : c ∈ p.choices) :
    p.choiceByValue c.value = some c :=
  find?_of_nodup_map hp hc

theorem mem_of_choiceByValue {value : String} (h : p.choiceByValue value = some c) :
    c ∈ p.choices ∧ c.value = value :=
  ⟨List.mem_of_find?_eq_some h, by simpa using List.find?_some h⟩

/-- The value of a choice is found, perhaps on an earlier choice. -/
theorem exists_choiceByValue (hc : c ∈ p.choices) :
    ∃ d, p.choiceByValue c.value = some d :=
  Option.isSome_iff_exists.mp (List.find?_isSome.mpr ⟨c, hc, beq_self_eq_true c.value⟩)

theorem mem_of_choice {clicked : String} (h : p.choice clicked = some c) : c ∈ p.choices := by
  rcases Option.or_eq_some_iff.mp h with h | ⟨_, h⟩
  · exact List.mem_of_find?_eq_some h
  · exact (mem_of_choiceByValue h).1

end Parameter

/-- The characters in which a menu compiled from a source is written. -/
def Template.Allowed (source : String) (c : Char) : Prop :=
  (c ∈ source.toList ∧ Template.isPlain c = true) ∨ Decimal.IsNumeral c

/-- What compiling `source` guarantees of a parameter. -/
structure Parameter.CompiledFrom (source : String) (p : Parameter) : Prop where
  /-- There is something to select. -/
  choices_ne_nil : p.choices ≠ []
  numbered : p.Numbered
  /-- Values are written in the source. -/
  value : ∀ c ∈ p.choices, Text.WrittenIn (Template.Allowed source) c.value

namespace Menu

/-- Numbering offers and pointing them at the next placeholder leaves them as they are. -/
theorem mem_link_number {index count : Nat} {offers : List Offer} {c : Choice}
    (h : c ∈ link index count (Choice.number offers)) :
    ∃ o ∈ offers, c.value = o.value ∧ c.label = o.label ∧ c.direct = o.direct := by
  obtain ⟨d, hd, rfl⟩ := List.mem_map.mp h
  obtain ⟨⟨o, i⟩, ho, rfl⟩ := List.mem_map.mp hd
  exact ⟨o, List.fst_mem_of_mem_zipIdx ho, rfl, rfl, rfl⟩

theorem ids_link_number (index count : Nat) (offers : List Offer) :
    (link index count (Choice.number offers)).map Choice.id =
      (List.range offers.length).map fun i => Choice.idAt (i + 1) := by
  rw [List.range_eq_range', ← List.zipIdx_map_snd 0 offers]
  simp only [link, Choice.number, List.map_map]
  rfl

theorem values_link_number (index count : Nat) (offers : List Offer) :
    (link index count (Choice.number offers)).map Choice.value = offers.map Offer.value := by
  conv_rhs => rw [← List.zipIdx_map_fst 0 offers]
  simp only [link, Choice.number, List.map_map]
  rfl

/-- A parameter has the choices of its placeholder, with the next placeholder filled in. -/
theorem choices_of_expand {limits : Limits} {count : Nat} {p : Placeholder}
    {parameter : Parameter} {choices : List Choice}
    (hchoices : Spec.choices Spec.builtin limits p.expression p.spec = .ok choices)
    (h : expand Spec.builtin limits count p = .ok parameter) :
    parameter.choices = link p.index count choices := by
  obtain ⟨choices', hchoices', h⟩ := exists_of_bind_ok h
  obtain rfl := Except.ok.inj (hchoices.symm.trans hchoices')
  split at h
  · cases h
  · obtain rfl := Except.ok.inj h
    rfl

/-- **What a placeholder of a template offers is written in the template.** -/
theorem exists_offers_of_expand {limits : Limits} {source : String} {t : Template}
    {p : Placeholder} {parameter : Parameter} {count : Nat} (ht : Template.parse source = .ok t)
    (hp : p ∈ t.placeholders) (h : expand Spec.builtin limits count p = .ok parameter) :
    ∃ offers, offers ≠ [] ∧ parameter.choices = link p.index count (Choice.number offers) ∧
      ∀ o ∈ offers, o.WrittenIn (Template.Allowed source) := by
  obtain ⟨choices, hchoices, h⟩ := exists_of_bind_ok h
  obtain ⟨offers, rfl, hoffers⟩ := Spec.choices_ok hchoices
  split at h
  · cases h
  · rename_i hempty
    obtain rfl := Except.ok.inj h
    have hallowed : ∀ c, Spec.Allowed p.spec c → Template.Allowed source c := by
      rintro c (⟨text, htext, hc⟩ | hc)
      · exact Or.inl (Template.mem_of_parse ht hp htext hc)
      · exact Or.inr hc
    refine ⟨offers, ?_, rfl, fun o ho => (hoffers o ho).mono hallowed⟩
    rintro rfl
    exact hempty rfl

theorem compiledFrom_of_expand {limits : Limits} {source : String} {t : Template} {p : Placeholder}
    {parameter : Parameter} {count : Nat} (ht : Template.parse source = .ok t)
    (hp : p ∈ t.placeholders) (h : expand Spec.builtin limits count p = .ok parameter) :
    parameter.CompiledFrom source := by
  obtain ⟨offers, hne, hchoices, hoffers⟩ := exists_offers_of_expand ht hp h
  have hlength : parameter.choices.length = offers.length := by
    simp [hchoices, link]
  refine ⟨?_, ?_, fun c hc => ?_⟩
  · rw [← List.length_pos_iff, hlength]
    exact List.length_pos_iff.mpr hne
  · rw [Parameter.Numbered, hlength, hchoices]
    exact ids_link_number p.index count offers
  · rw [hchoices] at hc
    obtain ⟨o, ho, hvalue, -⟩ := mem_link_number hc
    exact hvalue ▸ (hoffers o ho).value

/-- A compiled menu has the template that was read and its placeholders expanded one by one. -/
theorem compile_ok {limits : Limits} {source : String} {m : Menu}
    (h : compile limits source = .ok m) :
    Template.parse source = .ok m.template ∧ m.limits = limits ∧
      List.Forall₂ (fun p parameter =>
        expand Spec.builtin limits m.template.slots.length p = .ok parameter)
        m.template.placeholders m.parameters := by
  unfold compile compileWith at h
  split at h
  · cases h
  · rename_i t ht
    obtain ⟨parameters, hparameters, h⟩ := exists_of_bind_ok h
    obtain rfl := Except.ok.inj h
    exact ⟨ht, rfl, forall₂_of_mapM_ok hparameters⟩

/-- What compiling `source` guarantees of a menu. -/
structure CompiledFrom (source : String) (limits : Limits) (m : Menu) : Prop where
  limits_eq : m.limits = limits
  parameter : ∀ p ∈ m.parameters, p.CompiledFrom source

/-- **Compiling keeps its guarantees.** -/
theorem compiledFrom_of_compile {limits : Limits} {source : String} {m : Menu}
    (h : compile limits source = .ok m) : m.CompiledFrom source limits := by
  obtain ⟨hparse, hlimits, hexpand⟩ := compile_ok h
  refine ⟨hlimits, ?_⟩
  intro p hp
  obtain ⟨q, hq, hparameter⟩ := exists_of_forall₂_of_mem hexpand hp
  exact compiledFrom_of_expand hparse hq hparameter

end Menu

end RollMenu
