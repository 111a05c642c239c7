import Mathlib
import RollMenu.Proofs.PlainIntegers

/-!
# Lists read back

A list is written with three marks: `/` between its entries, `@` between a value and its label,
and `!` in front of a label that ends the selection. Whoever keeps the first two out of values and
labels, and does not let another label begin with the third one, gets back what was written. Blanks,
colons, digits and even the arrow of a range may stand in an entry.

The arrow is the reason why this is more than a round trip. Ranges are asked first whether a spec
is theirs, and a list may look like one. But a text with a `/` in it is no integer, on neither side
of the arrow, so a list of at least two entries is never taken for a range.
-/

namespace RollMenu

/-! ## No list is a range -/

theorem Text.mem_trim_iff {c : Char} (hc : isBlank c = false) {cs : List Char} :
    c ∈ trim cs ↔ c ∈ cs := by
  have hdrop : ∀ ds : List Char, c ∈ dropBlank ds ↔ c ∈ ds := by
    intro ds
    refine ⟨fun h => (List.dropWhile_sublist _).subset h, fun h => ?_⟩
    rw [← List.takeWhile_append_dropWhile (p := isBlank) (l := ds)] at h
    refine (List.mem_append.mp h).resolve_left fun hblank => ?_
    rw [List.mem_takeWhile_imp hblank] at hc
    cases hc
  rw [trim, List.mem_reverse, hdrop, List.mem_reverse, hdrop]

/-- What is read as an integer is written in digits, with or without a sign. -/
theorem Decimal.mem_of_integer? {cs : List Char} {n : Int} (h : integer? cs = some n) {c : Char}
    (hc : c ∈ cs) : c.isDigit = true ∨ c = '+' ∨ c = '-' := by
  have hdigits : ∀ {ds : List Char} {f : Nat → Option Int}, (digits? ds).bind f = some n →
      c ∈ ds → c.isDigit = true := by
    intro ds f hbind hmem
    obtain ⟨k, hk, -⟩ := Option.bind_eq_some_iff.mp hbind
    exact (isDigit_of_digits? hk).2.1 c hmem
  unfold integer? at h
  split at h
  · rcases List.mem_cons.mp hc with rfl | hc
    · exact Or.inr (Or.inl rfl)
    · exact Or.inl (hdigits h hc)
  · rcases List.mem_cons.mp hc with rfl | hc
    · exact Or.inr (Or.inr rfl)
    · exact Or.inl (hdigits h hc)
  · exact Or.inl (hdigits h hc)

namespace Range

theorem eq_of_splitArrow {cs low high : List Char} (h : splitArrow cs = some (low, high)) :
    cs = low ++ '<' :: '=' :: '>' :: high := by
  fun_induction splitArrow cs generalizing low high with
  | case1 rest =>
    obtain ⟨rfl, rfl⟩ := Prod.mk.inj (Option.some.inj h)
    rfl
  | case2 c rest _ ih =>
    obtain ⟨⟨low', high'⟩, hrest, hparts⟩ := Option.map_eq_some_iff.mp h
    obtain ⟨rfl, rfl⟩ := Prod.mk.inj hparts
    rw [ih hrest]
    rfl
  | case3 => cases h

/-- **A text with a `/` is no range.** -/
theorem bounds?_eq_none_of_separator {text : String} (h : Listing.separator ∈ text.toList) :
    bounds? text = none := by
  have hblank : Text.isBlank Listing.separator = false := rfl
  have hnone : ∀ {cs : List Char}, Listing.separator ∈ cs →
      Decimal.integer? (Text.trim cs) = none := by
    intro cs hcs
    refine Option.eq_none_iff_forall_ne_some.mpr fun n hn => ?_
    rcases Decimal.mem_of_integer? hn ((Text.mem_trim_iff hblank).mpr hcs) with h | h | h <;>
      cases h
  rw [← Text.mem_trim_iff hblank] at h
  unfold bounds?
  cases harrow : splitArrow (Text.trim text.toList) with
  | none => rfl
  | some parts =>
    obtain ⟨low, high⟩ := parts
    rw [eq_of_splitArrow harrow] at h
    -- the `/` is on one of the two sides
    rcases List.mem_append.mp h with hlow | hhigh
    · simp [hnone hlow]
    · have hmem : Listing.separator ∈ high := by
        simpa [Listing.separator] using hhigh
      simp [hnone hmem]

end Range

/-! ## Writing a list -/

namespace Listing

/-- An entry as it is meant. -/
inductive Item where
  /-- A value that is its own label. -/
  | bare (value : String)
  /-- A value with a label, and whether it ends the selection. -/
  | labelled (offer : Offer)

namespace Item

/-- What an entry offers. -/
def offer : Item → Offer
  | bare value => Offer.plain value
  | labelled offer => offer

/-- The label of an offer with the mark that tells whether it ends the selection. -/
def markedLabel (offer : Offer) : List Char :=
  if offer.direct then '!' :: offer.label.toList else offer.label.toList

/-- How an entry is written. -/
def text : Item → List Char
  | bare value => value.toList
  | labelled offer => offer.value.toList ++ '@' :: markedLabel offer

/-- A part of an entry that holds no mark of a list. -/
def Unmarked (part : String) : Prop := separator ∉ part.toList ∧ '@' ∉ part.toList

/-- An entry that can be written. -/
def Writable : Item → Prop
  | bare value => ¬ Text.Blank value.toList ∧ Unmarked value
  | labelled offer => (offer.value ≠ "" ∧ Unmarked offer.value) ∧
      (offer.label ≠ "" ∧ Unmarked offer.label) ∧
      (offer.direct = false → offer.label.toList.head? = some '!' → offer.label = "!")

instance : DecidablePred Unmarked := fun _ => inferInstanceAs (Decidable (_ ∧ _))

instance : DecidablePred Writable
  | bare value => inferInstanceAs (Decidable (¬ Text.Blank value.toList ∧ Unmarked value))
  | labelled _ => inferInstanceAs (Decidable ((_ ∧ _) ∧ (_ ∧ _) ∧ (_ → _ → _)))

variable {item : Item} {offer : Offer}

theorem mem_markedLabel {c : Char} (hc : c ≠ '!') :
    c ∈ markedLabel offer ↔ c ∈ offer.label.toList := by
  unfold markedLabel
  split
  · rw [List.mem_cons, or_iff_right hc]
  · rfl

theorem separator_notMem_text (h : item.Writable) : separator ∉ item.text := by
  cases item with
  | bare value => exact h.2.1
  | labelled offer =>
    obtain ⟨⟨-, hvalue, -⟩, ⟨-, hlabel, -⟩, -⟩ := h
    have hat : separator ≠ '@' := by decide
    have hmarked : separator ∉ markedLabel offer := by
      rwa [mem_markedLabel (by decide)]
    simp [text, hvalue, hat, hmarked]

theorem not_blank_text (h : item.Writable) : ¬ Text.Blank item.text := by
  cases item with
  | bare value => exact h.1
  | labelled offer =>
    intro hblank
    have hat := hblank '@' (by simp [text])
    cases hat

/-- Text without an `@` is its own label. -/
theorem entry_of_notMem {cs : List Char} (h : '@' ∉ cs) :
    entry cs = Offer.plain (String.ofList cs) := by
  have hparts : (['@'].intercalate [cs]).splitOn '@' = [cs] :=
    List.splitOn_intercalate '@' (by simpa using h) (List.cons_ne_nil _ _)
  rw [List.intercalate_singleton] at hparts
  unfold entry
  rw [hparts]
  cases cs <;> rfl

/-- Two parts, the second with a mark in front of a label. -/
theorem entry_of_marked {cs value label : List Char} (h : cs.splitOn '@' = [value, '!' :: label])
    (hvalue : value ≠ []) (hlabel : label ≠ []) :
    entry cs =
      { value := String.ofList value, label := String.ofList label, direct := true } := by
  obtain ⟨v, vs, rfl⟩ := List.exists_cons_of_ne_nil hvalue
  obtain ⟨l, ls, rfl⟩ := List.exists_cons_of_ne_nil hlabel
  unfold entry
  rw [h]
  rfl

/-- Two parts, the second without a mark or with nothing behind it. -/
theorem entry_of_unmarked {cs value label : List Char} (h : cs.splitOn '@' = [value, label])
    (hvalue : value ≠ []) (hlabel : label ≠ []) (hmark : label.head? = some '!' → label = ['!']) :
    entry cs = { value := String.ofList value, label := String.ofList label } := by
  obtain ⟨v, vs, rfl⟩ := List.exists_cons_of_ne_nil hvalue
  obtain ⟨l, ls, rfl⟩ := List.exists_cons_of_ne_nil hlabel
  unfold entry
  rw [h]
  by_cases hl : l = '!'
  · have hls := hmark (by rw [hl]; rfl)
    rw [hls]
    rfl
  · cases ls with
    | nil => simp
    | cons l' ls => simp [hl]

/-- Around its only `@` an entry is split, and what stands in front of the label counts. -/
theorem splitOn_labelled (hvalue : '@' ∉ offer.value.toList) (hlabel : '@' ∉ offer.label.toList) :
    (labelled offer).text.splitOn '@' = [offer.value.toList, markedLabel offer] := by
  have hmarked : '@' ∉ markedLabel offer := by
    rwa [mem_markedLabel (by decide)]
  have htext : (labelled offer).text =
      ['@'].intercalate [offer.value.toList, markedLabel offer] := by
    simp [text, List.intercalate]
  rw [htext]
  exact List.splitOn_intercalate '@' (by simp [hvalue, hmarked]) (List.cons_ne_nil _ _)

/-- **An entry is read as what it offers.** -/
theorem entry_text (h : item.Writable) : entry item.text = item.offer := by
  cases item with
  | bare value =>
    rw [text, entry_of_notMem h.2.2, String.ofList_toList]
    rfl
  | labelled offer =>
    obtain ⟨⟨hvalue, -, hvalue'⟩, ⟨hlabel, -, hlabel'⟩, hmark⟩ := h
    have hsplit := splitOn_labelled hvalue' hlabel'
    have hvalue := mt String.toList_eq_nil_iff.mp hvalue
    have hlabel := mt String.toList_eq_nil_iff.mp hlabel
    obtain ⟨value, label, direct⟩ := offer
    cases direct with
    | true =>
      rw [entry_of_marked hsplit hvalue hlabel, String.ofList_toList, String.ofList_toList]
      rfl
    | false =>
      have hsplit' : (labelled { value, label }).text.splitOn '@' =
          [value.toList, label.toList] := hsplit
      have hmark' : label.toList.head? = some '!' → label.toList = ['!'] := fun h =>
        congrArg String.toList (hmark rfl h)
      rw [entry_of_unmarked hsplit' hvalue hlabel hmark', String.ofList_toList,
        String.ofList_toList]
      rfl

end Item

/-- A list as it is written. -/
def write (items : List Item) : String :=
  String.ofList ([separator].intercalate (items.map Item.text))

variable {items : List Item}

theorem separator_mem_write (h : 2 ≤ items.length) : separator ∈ (write items).toList := by
  match items, h with
  | first :: second :: rest, _ =>
    simp [write, List.intercalate_cons_cons]

/-- **The entries of a written list are the ones it was written from.** -/
theorem splitOn_write (hne : items ≠ []) (h : ∀ item ∈ items, item.Writable) :
    (write items).toList.splitOn separator = items.map Item.text := by
  rw [write, String.toList_ofList]
  refine List.splitOn_intercalate separator ?_ (mt List.map_eq_nil_iff.mp hne)
  intro text htext
  obtain ⟨item, hitem, rfl⟩ := List.mem_map.mp htext
  exact Item.separator_notMem_text (h item hitem)

theorem entries_write (cap : UInt64) (hne : items ≠ []) (h : ∀ item ∈ items, item.Writable) :
    entries cap (write items) = (items.take cap.toNat).map Item.text := by
  rw [entries, splitOn_write hne h, ← List.map_take]
  refine List.filter_eq_self.mpr ?_
  intro text htext
  obtain ⟨item, hitem, rfl⟩ := List.mem_map.mp htext
  have hblank := Item.not_blank_text (h item (List.mem_of_mem_take hitem))
  simp [hblank]

theorem offers_write {limits : Limits} (hcap : 1 ≤ limits.listCap.toNat) (hne : items ≠ [])
    (h : ∀ item ∈ items, item.Writable) :
    format.offers limits (write items) =
      some ((items.take limits.listCap.toNat).map Item.offer) := by
  have hread : ((items.take limits.listCap.toNat).map Item.text).map entry =
      (items.take limits.listCap.toNat).map Item.offer := by
    rw [List.map_map]
    exact List.map_congr_left fun item hitem =>
      Item.entry_text (h item (List.mem_of_mem_take hitem))
  have htexts : entries limits.listCap (write items) ≠ [] := by
    rw [entries_write _ hne h]
    simp only [ne_eq, List.map_eq_nil_iff, List.take_eq_nil_iff, hne, or_false]
    omega
  rw [← hread, ← entries_write _ hne h]
  cases hlist : entries limits.listCap (write items) with
  | nil => exact absurd hlist htexts
  | cons text texts => simp only [format, hlist]

end Listing

/-- A spec with a `/` in it is read as a list. -/
theorem Spec.find?_of_separator {text : String} (h : Listing.separator ∈ text.toList) :
    builtin.find? (·.accepts text) = some Listing.format := by
  have hrange : ¬ Range.format.accepts text = true := by
    simp [Range.format, Range.bounds?_eq_none_of_separator h]
  have hlist : Listing.format.accepts text = true := by
    simpa [Listing.format] using h
  exact (List.find?_cons_of_neg (p := fun f : SpecFormat => f.accepts text) hrange).trans
    (List.find?_cons_of_pos hlist)

namespace Listing

/--
**A list reads back what was written.** From two entries on, and with a cap that admits any at
all, the choices are the first entries that were written, as many as the cap admits, each by its
value, its label and its mark, and numbered in their order.
-/
theorem choices_write {items : List Item} (hmany : 2 ≤ items.length)
    (hitems : ∀ item ∈ items, item.Writable) {limits : Limits}
    (hcap : 1 ≤ limits.listCap.toNat) (expression : String) :
    Spec.choices Spec.builtin limits expression (some (write items)) =
      .ok ((items.take (min items.length limits.listCap.toNat)).mapIdx fun i item =>
        { value := item.offer.value, label := item.offer.label, id := "id" ++ (i + 1).repr,
          direct := item.offer.direct, next := none }) := by
  have hne : items ≠ [] := List.ne_nil_of_length_pos (by omega)
  have hfind := Spec.find?_of_separator (separator_mem_write hmany)
  have hread := offers_write hcap hne hitems
  have htake : items.take (min items.length limits.listCap.toNat) =
      items.take limits.listCap.toNat := by
    rw [Nat.min_comm, ← List.take_eq_take_min]
  rw [htake]
  simp only [Spec.choices, Option.bind_some, hfind, Option.map_some, hread]
  rw [Choice.number, List.mapIdx_eq_zipIdx_map, List.zipIdx_map, List.map_map]
  rfl

/-- A cap that leaves the last of four entries out, and entries that come near the marks: an arrow
between digits, a blank value with the mark for its label, a mark behind a mark. -/
theorem choices_write_lookalikes :
    let items : List Item := [.bare "1<=>2", .labelled { value := " ", label := "!" },
      .labelled { value := "a:b", label := "!x", direct := true }, .bare " 7 "]
    let limits : Limits := { listCap := 3 }
    2 ≤ items.length ∧ (∀ item ∈ items, item.Writable) ∧ 1 ≤ limits.listCap.toNat ∧
      write items = "1<=>2/ @!/a:b@!!x/ 7 " ∧
      Spec.choices Spec.builtin limits "" (some (write items)) = .ok
        [{ value := "1<=>2", label := "1<=>2", id := "id1", direct := false, next := none },
          { value := " ", label := "!", id := "id2", direct := false, next := none },
          { value := "a:b", label := "!x", id := "id3", direct := true, next := none }] := by
  intro items limits
  have hmany : 2 ≤ items.length := by decide
  have hitems : ∀ item ∈ items, item.Writable := by decide
  have hcap : 1 ≤ limits.listCap.toNat := by decide
  refine ⟨hmany, hitems, hcap, by cbv, ?_⟩
  exact (choices_write hmany hitems hcap "").trans (by cbv)

end Listing

end RollMenu
