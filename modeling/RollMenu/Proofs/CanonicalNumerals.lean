import RollMenu.Proofs.Readers
import RollMenu.Proofs.WireRoundTrip

/-!
# The one way a number is written

A word can be read from many texts: with a plus sign in front, or with any number of
leading zeros. It is written in one of them, the one without either. The main statement
says just that of the texts that read as a word, and besides that no other of them is
shorter.
-/

namespace RollMenu.Decimal

/-! ## Digits and their value -/

theorem toDigits_of_isDigit {c : Char} (h : c.isDigit = true) :
    Nat.toDigits 10 (c.toNat - '0'.toNat) = [c] := by
  obtain ⟨hlow, hhigh⟩ := Char.isDigit_iff_toNat.mp h
  have hzero : '0'.toNat = 48 := rfl
  have hnine : '9'.toNat = 57 := rfl
  have hlt : c.toNat - '0'.toNat < 10 := by omega
  rw [Nat.toDigits_of_lt_base hlt]
  congr 1
  rw [← Char.toNat_inj, Nat.toNat_digitChar_of_lt_ten hlt]
  omega

/-- Digits are written behind a number by counting on. -/
theorem toDigits_ofDigitChars_of_pos {cs : List Char} {n : Nat} (hn : 0 < n)
    (h : ∀ c ∈ cs, c.isDigit = true) :
    Nat.toDigits 10 (Nat.ofDigitChars 10 cs n) = Nat.toDigits 10 n ++ cs := by
  induction cs generalizing n with
  | nil => rw [Nat.ofDigitChars_nil, List.append_nil]
  | cons c cs ih =>
    obtain ⟨hc, hcs⟩ := List.forall_mem_cons.mp h
    obtain ⟨hlow, hhigh⟩ := Char.isDigit_iff_toNat.mp hc
    have hlt : c.toNat - '0'.toNat < 10 := by
      have hnine : '9'.toNat = '0'.toNat + 9 := rfl
      omega
    calc Nat.toDigits 10 (Nat.ofDigitChars 10 (c :: cs) n)
        = Nat.toDigits 10 (10 * n + (c.toNat - '0'.toNat)) ++ cs := by
          rw [Nat.ofDigitChars_cons, ih (by omega) hcs]
      _ = Nat.toDigits 10 n ++ [c] ++ cs := by
          rw [← Nat.toDigits_append_toDigits (by decide) hn hlt, toDigits_of_isDigit hc]
      _ = Nat.toDigits 10 n ++ c :: cs := List.append_assoc _ _ _

/-- A leading zero is not written again. -/
theorem ofDigitChars_zero_cons (cs : List Char) :
    Nat.ofDigitChars 10 ('0' :: cs) 0 = Nat.ofDigitChars 10 cs 0 :=
  Nat.ofDigitChars_cons

theorem toDigits_ofDigitChars_cons {c : Char} {cs : List Char} (hzero : c ≠ '0')
    (h : ∀ d ∈ c :: cs, d.isDigit = true) :
    Nat.toDigits 10 (Nat.ofDigitChars 10 (c :: cs) 0) = c :: cs := by
  obtain ⟨hc, hcs⟩ := List.forall_mem_cons.mp h
  have hlow := (Char.isDigit_iff_toNat.mp hc).1
  have hne : c.toNat ≠ '0'.toNat := fun heq => hzero (Char.toNat_inj.mp heq)
  rw [Nat.ofDigitChars_cons, Nat.mul_zero, Nat.zero_add,
    toDigits_ofDigitChars_of_pos (by omega) hcs, toDigits_of_isDigit hc, List.singleton_append]

/-- Without a leading zero, digits are what their value is written as. -/
theorem toDigits_ofDigitChars {cs : List Char} (hne : cs ≠ []) (h : ∀ c ∈ cs, c.isDigit = true)
    (hzero : cs.head? = some '0' → cs = ['0']) :
    Nat.toDigits 10 (Nat.ofDigitChars 10 cs 0) = cs := by
  cases cs with
  | nil => exact absurd rfl hne
  | cons c cs =>
    by_cases hc : c = '0'
    · rw [hzero (by rw [hc, List.head?_cons])]
      rfl
    · exact toDigits_ofDigitChars_cons hc h

/-- No digits are shorter than those that their value is written with. -/
theorem length_toDigits_ofDigitChars_le {cs : List Char} (hne : cs ≠ [])
    (h : ∀ c ∈ cs, c.isDigit = true) :
    (Nat.toDigits 10 (Nat.ofDigitChars 10 cs 0)).length ≤ cs.length := by
  induction cs with
  | nil => exact absurd rfl hne
  | cons c cs ih =>
    by_cases hc : c = '0'
    · subst hc
      rw [ofDigitChars_zero_cons]
      cases cs with
      | nil => exact Nat.le_refl 1
      | cons d ds =>
        exact Nat.le_succ_of_le (ih (List.cons_ne_nil d ds) (List.forall_mem_cons.mp h).2)
    · rw [toDigits_ofDigitChars_cons hc h]

/-- Digits that are written begin with a zero only if there is nothing else. -/
theorem eq_of_toDigits_eq_zero_cons {n : Nat} {cs : List Char}
    (h : Nat.toDigits 10 n = '0' :: cs) : cs = [] := by
  have hdigit : ∀ c ∈ '0' :: cs, c.isDigit = true :=
    List.all_eq_true.mp (h ▸ all_isDigit_toDigits n)
  have hvalue : Nat.ofDigitChars 10 cs 0 = n := by
    rw [← ofDigitChars_zero_cons, ← h, Nat.ofDigitChars_toDigits (by decide) (by decide)]
  by_contra hne
  -- the digits behind the zero would be a shorter text of the same value
  have hle := length_toDigits_ofDigitChars_le hne (List.forall_mem_cons.mp hdigit).2
  rw [hvalue, h, List.length_cons] at hle
  omega

/-! ## Words -/

/-- A word is read from digits, with or without a plus sign in front. -/
theorem exists_digits_of_word? {cs : List Char} {n : UInt64} (h : word? cs = some n) :
    ∃ ds, (cs = ds ∨ cs = '+' :: ds) ∧ digits? ds = some n.toNat := by
  obtain ⟨ds, hds, hword⟩ : ∃ ds, (cs = ds ∨ cs = '+' :: ds) ∧
      (digits? ds).bind (fun n => if n < wordBound then some (UInt64.ofNat n) else none) =
        some n := by
    unfold word? at h
    split at h
    · exact ⟨_, Or.inr rfl, h⟩
    · exact ⟨_, Or.inl rfl, h⟩
  obtain ⟨m, hm, hword⟩ := Option.bind_eq_some_iff.mp hword
  split at hword
  · rename_i hlt
    obtain rfl := Option.some.inj hword
    exact ⟨ds, hds, by rw [hm, UInt64.toNat_ofNat_of_lt' hlt]⟩
  · cases hword

/-- **No text that reads as a word is shorter than the one that is written.** -/
theorem length_ofWord_le {text : String} {n : UInt64} (h : word? text.toList = some n) :
    (ofWord n).length ≤ text.length := by
  obtain ⟨ds, hds, hvalue⟩ := exists_digits_of_word? h
  obtain ⟨hne, hdigit, hvalue⟩ := isDigit_of_digits? hvalue
  have hle := length_toDigits_ofDigitChars_le hne hdigit
  rw [← hvalue, ← Nat.toList_repr, String.length_toList] at hle
  rw [← String.length_toList (s := text), ofWord]
  rcases hds with hds | hds
  · rwa [hds]
  · rw [hds, List.length_cons]
    exact Nat.le_succ_of_le hle

/-- The text reads as the word and has neither a plus sign nor leading zeros. -/
structure Canonical (n : UInt64) (text : String) : Prop where
  reads : word? text.toList = some n
  unsigned : text.toList.head? ≠ some '+'
  unpadded : text.toList.head? = some '0' → text = "0"

theorem canonical_ofWord (n : UInt64) : Canonical n (ofWord n) := by
  have hlist : (ofWord n).toList = Nat.toDigits 10 n.toNat := Nat.toList_repr
  refine ⟨word?_ofWord n, ?_, ?_⟩
  · -- a plus sign is no digit
    intro hhead
    have hdigit := List.all_eq_true.mp (all_isDigit_toDigits n.toNat) '+'
      (hlist ▸ List.mem_of_mem_head? hhead)
    cases hdigit
  · intro hhead
    obtain ⟨cs, hcs⟩ := List.head?_eq_some_iff.mp hhead
    obtain rfl := eq_of_toDigits_eq_zero_cons (hlist.symm.trans hcs)
    exact String.toList_inj.mp hcs

/-- **A word is written in its canonical form, and nothing else is one.** -/
theorem canonical_iff_eq_ofWord {n : UInt64} {text : String} :
    Canonical n text ↔ text = ofWord n := by
  constructor
  · rintro ⟨hreads, hunsigned, hunpadded⟩
    obtain ⟨ds, hds, hvalue⟩ := exists_digits_of_word? hreads
    obtain ⟨hne, hdigit, hvalue⟩ := isDigit_of_digits? hvalue
    have htext : text.toList = ds := by
      refine hds.resolve_right fun hplus => hunsigned ?_
      rw [hplus, List.head?_cons]
    have hwritten := toDigits_ofDigitChars hne hdigit fun hhead => by
      rw [← htext] at hhead ⊢
      rw [hunpadded hhead]
      rfl
    apply String.toList_inj.mp
    rw [ofWord, Nat.toList_repr, htext, hvalue, hwritten]
  · rintro rfl
    exact canonical_ofWord n

end RollMenu.Decimal
