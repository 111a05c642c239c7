import Mathlib.Data.List.Basic
import RollMenu.Store.Record

/-!
# What is written reads back

A codec restores a value if it reads the value back off the front of any file that begins
with what it has written, and leaves the rest of the file. Put this way the property is
one that codecs inherit from their parts: the rest that the first part leaves is what the
second part reads. Sizes are written as machine words, so the only values that are not
restored are those with more bytes or elements than a word can count.
-/

namespace RollMenu

namespace Codec

variable {α β : Type}

/-- What is written of a value reads back, whatever follows it. -/
def Restores (c : Codec α) (a : α) : Prop :=
  ∀ rest, c.read (c.write a ++ rest) = some (a, rest)

theorem Restores.read_write {c : Codec α} {a : α} (h : c.Restores a) :
    c.read (c.write a) = some (a, []) := by
  have hread := h []
  rwa [List.append_nil] at hread

/-! ## Numbers -/

theorem readNumber_mark {widest width : Nat} {mark : UInt8} (bytes : Bytes) (hmark : ¬ mark < 251)
    (hwidth : (if mark = 0xfb then 2 else if mark = 0xfc then 4 else 8) = width)
    (hfits : mark ≤ 0xfd ∧ width ≤ widest) :
    readNumber widest (mark :: bytes) = readLittleEndian width bytes := by
  simp only [readNumber, if_neg hmark, hwidth, if_pos hfits]

/-- **A number reads back where its width is allowed.** -/
theorem readNumber_writeNumber {widest n : Nat} (rest : Bytes) (hsmall : 4 ≤ widest)
    (hlarge : UInt32.size ≤ n → 8 ≤ widest) (hn : n < UInt64.size) :
    readNumber widest (writeNumber n ++ rest) = some (n, rest) := by
  unfold writeNumber
  by_cases h8 : n < 251
  · have hbyte : (UInt8.ofNat n).toNat = n := by
      rw [UInt8.toNat_ofNat']
      exact Nat.mod_eq_of_lt (Nat.lt_trans h8 (by decide))
    have hmark : UInt8.ofNat n < 251 := by
      rw [UInt8.lt_iff_toNat_lt, hbyte]
      exact h8
    rw [if_pos h8, List.singleton_append, readNumber, if_pos hmark, hbyte]
  rw [if_neg h8]
  by_cases h16 : n < UInt16.size
  · have hfits : (0xfb : UInt8) ≤ 0xfd ∧ 2 ≤ widest := ⟨by decide, Nat.le_trans (by decide) hsmall⟩
    rw [if_pos h16, List.cons_append, readNumber_mark _ (by decide) rfl hfits]
    exact readLittleEndian_littleEndian rest h16
  rw [if_neg h16]
  by_cases h32 : n < UInt32.size
  · have hfits : (0xfc : UInt8) ≤ 0xfd ∧ 4 ≤ widest := ⟨by decide, hsmall⟩
    rw [if_pos h32, List.cons_append, readNumber_mark _ (by decide) rfl hfits]
    exact readLittleEndian_littleEndian rest h32
  · have hfits : (0xfd : UInt8) ≤ 0xfd ∧ 8 ≤ widest :=
      ⟨by decide, hlarge (Nat.le_of_not_lt h32)⟩
    rw [if_neg h32, List.cons_append, readNumber_mark _ (by decide) rfl hfits]
    exact readLittleEndian_littleEndian rest hn

/-- A size reads back if a machine word can hold it. -/
theorem readNumber_size {n : Nat} (rest : Bytes) (hn : n < UInt64.size) :
    readNumber 8 (writeNumber n ++ rest) = some (n, rest) :=
  readNumber_writeNumber rest (by decide) (fun _ => Nat.le_refl 8) hn

theorem restores_word (n : UInt64) : word.Restores n := by
  intro rest
  have hread := readNumber_size rest n.toNat_lt
  simp only [word, hread, Option.map_some, UInt64.ofNat_toNat]

theorem restores_oneOf [BEq α] [LawfulBEq α] {all : List α} {a : α} (ha : a ∈ all)
    (hall : all.length < UInt32.size) : (oneOf all).Restores a := by
  intro rest
  have hplace : all.idxOf a < all.length := List.idxOf_lt_length_of_mem ha
  have hsmall : ¬ UInt32.size ≤ all.idxOf a := by omega
  have hword : all.idxOf a < UInt64.size :=
    Nat.lt_trans (Nat.lt_trans hplace hall) (by decide : UInt32.size < UInt64.size)
  have hread := readNumber_writeNumber rest (Nat.le_refl 4) (fun h => absurd h hsmall) hword
  have hget : all[all.idxOf a]? = some a := List.getElem?_idxOf ha
  simp only [oneOf, hread, Option.bind_eq_bind, Option.bind_some, hget]
  rfl

/-! ## Texts, options and lists -/

theorem fromUTF8?_toByteArray (s : String) : String.fromUTF8? s.toByteArray = some s := by
  rw [String.fromUTF8?, dif_pos s.isValidUTF8]
  rfl

theorem restores_text {s : String} (hs : s.utf8ByteSize < UInt64.size) : text.Restores s := by
  intro rest
  have hread : readNumber 8 (text.write s ++ rest) =
      some (s.utf8ByteSize, s.toByteArray.data.toList ++ rest) := by
    rw [text, List.append_assoc]
    exact readNumber_size _ hs
  have hlength : s.toByteArray.data.toList.length = s.utf8ByteSize := rfl
  have hlong : ¬ (s.toByteArray.data.toList ++ rest).length < s.utf8ByteSize := by
    rw [List.length_append, hlength]
    omega
  have htake : (s.toByteArray.data.toList ++ rest).take s.utf8ByteSize =
      s.toByteArray.data.toList := List.take_left' hlength
  have hdrop : (s.toByteArray.data.toList ++ rest).drop s.utf8ByteSize = rest :=
    List.drop_left' hlength
  have hbytes : String.fromUTF8? ⟨s.toByteArray.data.toList.toArray⟩ = some s := by
    rw [Array.toArray_toList]
    exact fromUTF8?_toByteArray s
  simp only [text] at hread ⊢
  simp only [hread, Option.bind_eq_bind, Option.bind_some, if_neg hlong, htake, hdrop, hbytes]
  rfl

theorem restores_optional {c : Codec α} {a : Option α} (h : ∀ x ∈ a, c.Restores x) :
    (optional c).Restores a := by
  intro rest
  cases a with
  | none => rfl
  | some x =>
    have hread := h x rfl rest
    simp only [optional, List.cons_append, hread, Option.map_some]

/-- As many values read back as were written one behind the other. -/
theorem readMany_flatMap {c : Codec α} {xs : List α} (rest : Bytes) (h : ∀ x ∈ xs, c.Restores x) :
    readMany c xs.length (xs.flatMap c.write ++ rest) = some (xs, rest) := by
  induction xs with
  | nil => rfl
  | cons x xs ih =>
    obtain ⟨hx, hxs⟩ := List.forall_mem_cons.mp h
    rw [List.length_cons, readMany, List.flatMap_cons, List.append_assoc, hx]
    simp only [Option.bind_eq_bind, Option.bind_some, ih hxs]
    rfl

theorem restores_list {c : Codec α} {xs : List α} (hlength : xs.length < UInt64.size)
    (h : ∀ x ∈ xs, c.Restores x) : (list c).Restores xs := by
  intro rest
  have hread := readNumber_size (xs.flatMap c.write ++ rest) hlength
  simp only [list, List.append_assoc, hread, Option.bind_eq_bind, Option.bind_some]
  exact readMany_flatMap rest h

/-! ## Records -/

theorem restores_pair {c : Codec α} {d : Codec β} {a : α} {b : β} (ha : c.Restores a)
    (hb : d.Restores b) : (pair c d).Restores (a, b) := by
  intro rest
  simp only [pair, List.append_assoc, ha (d.write b ++ rest), hb rest, Option.bind_eq_bind,
    Option.bind_some]
  rfl

theorem restores_convert {c : Codec α} {parts : β → α} {make : α → β} {b : β}
    (h : c.Restores (parts b)) (hmake : make (parts b) = b) :
    (convert c parts make).Restores b := by
  intro rest
  simp only [convert, h rest, Option.map_some, hmake]

end Codec

/-! ## Stored records -/

/-- No text is longer than a machine word can count. -/
def DisplayStyle.Storable (style : DisplayStyle) : Prop :=
  ∀ color ∈ style.color, color.utf8ByteSize < UInt64.size

theorem DisplayStyle.restores {style : DisplayStyle} (h : style.Storable) :
    DisplayStyle.codec.Restores style := by
  refine Codec.restores_convert (Codec.restores_pair ?_ ?_) rfl
  · exact Codec.restores_oneOf (by cases style.image <;> decide) (by decide)
  · exact Codec.restores_optional fun color hcolor => Codec.restores_text (h color hcolor)

/-- No text is longer than a machine word can count. -/
structure Config.Storable (config : Config) : Prop where
  template : config.template.utf8ByteSize < UInt64.size
  locale : config.locale.utf8ByteSize < UInt64.size
  displayStyle : config.displayStyle.Storable

/-- **A configuration reads back.** -/
theorem Config.restores {config : Config} (h : config.Storable) : Config.codec.Restores config := by
  refine Codec.restores_convert ?_ rfl
  refine Codec.restores_pair (Codec.restores_text h.template) ?_
  refine Codec.restores_pair (Codec.restores_optional fun n _ => Codec.restores_word n) ?_
  refine Codec.restores_pair (Codec.restores_text h.locale) ?_
  refine Codec.restores_pair ?_ (Codec.restores_pair ?_ (DisplayStyle.restores h.displayStyle))
  · exact Codec.restores_oneOf (by cases config.engine <;> decide) (by decide)
  · exact Codec.restores_oneOf (by cases config.answerFormat <;> decide) (by decide)

/-- There are no more selections, and no text is longer, than a machine word can count. -/
structure Progress.Storable (p : Progress) : Prop where
  length : p.selections.length < UInt64.size
  selections : ∀ value ∈ p.selections, value.utf8ByteSize < UInt64.size
  lock : ∀ user ∈ p.lock, user.utf8ByteSize < UInt64.size

/-- **A selection in progress reads back.** -/
theorem Progress.restores {p : Progress} (h : p.Storable) : Progress.codec.Restores p := by
  refine Codec.restores_convert (Codec.restores_pair ?_ ?_) rfl
  · exact Codec.restores_list h.length fun value hv => Codec.restores_text (h.selections value hv)
  · exact Codec.restores_optional fun user huser => Codec.restores_text (h.lock user huser)

end RollMenu
