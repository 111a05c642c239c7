import RollMenu.WireId

/-!
# Ids read back

An id is written by joining parts and read by splitting at the same separators, first into
fields and then the selections field once more. Splitting undoes joining as long as no part
contains the separator in question, and as long as something was joined: one empty
selection is written like none at all. `Separable` collects just these conditions, and
under them an id reads back as it was, in the layout in which it is written.
-/

namespace RollMenu

namespace Decimal

/-- A word that was written reads back. -/
theorem word?_ofWord (n : UInt64) : word? (ofWord n).toList = some n := by
  have hbound : n.toNat < wordBound := n.toNat_lt
  rw [ofWord, Nat.toList_repr, word?]
  · simp only [digits?_toDigits, Option.bind_some, if_pos hbound, UInt64.ofNat_toNat]
  · -- a plus sign is no digit
    intro rest h
    have hdigits := all_isDigit_toDigits n.toNat
    rw [h] at hdigits
    simp at hdigits

theorem ofWord_ne_empty (n : UInt64) : ofWord n ≠ "" := Nat.repr_ne_empty

end Decimal

namespace WireId

/-- No part of the id would be split, and the selections are not a single empty one. -/
structure Separable (id : WireId) : Prop where
  command : fieldSeparator ∉ id.command.toList
  click : fieldSeparator ∉ id.click.toList
  field : ∀ s ∈ id.selections, fieldSeparator ∉ s.toList
  selection : ∀ s ∈ id.selections, selectionSeparator ∉ s.toList
  ne_blank : id.selections ≠ [""]

/-- Splitting undoes joining. -/
theorem splitAt_intercalate {separator : Char} {parts : List String}
    (h : ∀ part ∈ parts, separator ∉ part.toList) (hne : parts ≠ []) :
    splitAt separator ((String.singleton separator).intercalate parts) = parts := by
  have hsplit : ([separator].intercalate (parts.map String.toList)).splitOn separator =
      parts.map String.toList := by
    refine List.splitOn_intercalate separator ?_ (by simpa using hne)
    intro cs hcs
    obtain ⟨part, hpart, rfl⟩ := List.mem_map.mp hcs
    exact h part hpart
  rw [splitAt, String.toList_intercalate, String.toList_singleton, hsplit, List.map_map]
  exact List.map_id'' (fun part => String.ofList_toList) parts

/-- No separator stands in a joined text that is not in a part. -/
theorem not_mem_intercalate {separator c : Char} {parts : List String} (hc : c ≠ separator)
    (h : ∀ part ∈ parts, c ∉ part.toList) :
    c ∉ ((String.singleton separator).intercalate parts).toList := by
  rw [String.toList_intercalate, String.toList_singleton]
  induction parts with
  | nil => simp
  | cons part parts ih =>
    obtain ⟨hpart, hparts⟩ := List.forall_mem_cons.mp h
    by_cases hnil : parts = []
    · subst hnil
      simpa using hpart
    · rw [List.map_cons, List.intercalate_cons_of_ne_nil (by simpa using hnil)]
      simp [hpart, hc, ih hparts]

theorem readTarget_targetField (target : Option UInt64) :
    readTarget (targetField target) = .ok target := by
  cases target with
  | none => rfl
  | some n =>
    rw [readTarget, targetField, if_neg (by simpa using Decimal.ofWord_ne_empty n)]
    simp only [Decimal.word?_ofWord]

theorem fieldSeparator_not_mem_targetField (target : Option UInt64) :
    fieldSeparator ∉ (targetField target).toList := by
  cases target with
  | none => simp [targetField]
  | some n =>
    intro h
    rw [targetField, Decimal.ofWord, Nat.toList_repr] at h
    have hdigit := List.all_eq_true.mp (Decimal.all_isDigit_toDigits n.toNat) _ h
    exact absurd hdigit (by decide)

/-- The selections read back. -/
theorem readSelections_intercalate {selections : List String}
    (h : ∀ s ∈ selections, selectionSeparator ∉ s.toList) (hne : selections ≠ [""]) :
    readSelections ((String.singleton selectionSeparator).intercalate selections) = selections := by
  cases selections with
  | nil => rfl
  | cons s rest =>
    have hjoined : (String.singleton selectionSeparator).intercalate (s :: rest) ≠ "" := by
      intro hempty
      have hlist := congrArg String.toList hempty
      rw [String.toList_intercalate, String.toList_singleton] at hlist
      cases rest with
      | nil => exact hne (by simpa using hlist)
      | cons t ts => simp [List.intercalate_cons_cons] at hlist
    -- a field that is not empty is split
    rw [readSelections, if_neg (by simpa using hjoined)]
    exact splitAt_intercalate h (List.cons_ne_nil s rest)

theorem splitAt_encode {id : WireId} (h : id.Separable) :
    splitAt fieldSeparator id.encode =
      [id.command, (String.singleton selectionSeparator).intercalate id.selections,
        targetField id.target, id.click] := by
  refine splitAt_intercalate ?_ (List.cons_ne_nil _ _)
  simp only [List.forall_mem_cons]
  exact ⟨h.command, not_mem_intercalate (by decide) h.field,
    fieldSeparator_not_mem_targetField id.target, h.click, List.forall_mem_nil _⟩

/-- **An id without stray separators reads back as it was.** -/
theorem decodeLayout_encode {id : WireId} (h : id.Separable) :
    decodeLayout id.encode = .ok (.current, id) := by
  rw [decodeLayout, splitAt_encode h]
  simp only [readTarget_targetField, readSelections_intercalate h.selection h.ne_blank]
  rfl

theorem decode_encode {id : WireId} (h : id.Separable) : decode id.encode = .ok id := by
  rw [decode, decodeLayout_encode h]
  rfl

end WireId

end RollMenu
