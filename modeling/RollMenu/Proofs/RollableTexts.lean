import Mathlib.Data.List.Induction
import RollMenu.Dice.Evaluator
import RollMenu.Proofs.GapReading

/-!
# Numbers that may be exchanged

Given texts that the engine takes, which others does it take that differ from them in one
number only? There are two answers. A number that belongs to no pool may be made smaller,
down to 1. A number anywhere, perhaps with more digits around it, may be replaced by one
that lies between two that are taken. In the second case the length of the numeral counts
as well as its value, because digits in front of it get another weight when it is longer.
-/

namespace RollMenu.Dice

/-- The text reads and passes the check. -/
def Rollable (cs : List Char) : Prop :=
  ∃ e, Reader.whole maxNesting cs = .ok e ∧ e.check = .ok ()

theorem complaint_eq_none_iff {source : String} :
    complaint source = none ↔ Rollable source.toList := by
  unfold complaint parse Rollable
  cases Reader.whole maxNesting source.toList with
  | error stop => simp [Except.mapError]
  | ok e => cases hcheck : e.check <;> simp [Except.mapError, hcheck]

namespace Gap

variable {g : Gap} {w : List Char} {n : Nat}

/-- **A number that belongs to no pool may be any smaller one but zero.** -/
theorem Alone.rollable (hg : g.Alone) (h : Rollable (g.fill g.numeral))
    (hw : Decimal.digits? w = some n) (hpos : 0 < n) (hn : n ≤ g.top) : Rollable (g.fill w) := by
  obtain ⟨e, hread, hcheck⟩ := h
  obtain ⟨F, hF, hrun⟩ := exists_place_of_whole hread
  obtain rfl := Except.ok.inj (hread.symm.trans (hrun _ _ g.numeral_value (Nat.le_refl _)))
  refine ⟨F n, hrun w n hw hn, hF.check_of_le hcheck hpos hn ?_⟩
  intro hpooled
  exact absurd hg hpooled

/-- **A number that lies between two numbers is as good as they are.** -/
theorem rollable_of_between {v : List Char} {low : Nat} (h : Rollable (g.fill g.numeral))
    (hv : Decimal.digits? v = some low) (hlow : Rollable (g.fill v))
    (hw : Decimal.digits? w = some n) (hle : low ≤ n) (hn : n ≤ g.top) : Rollable (g.fill w) := by
  obtain ⟨e, hread, hcheck⟩ := h
  obtain ⟨F, hF, hrun⟩ := exists_place_of_whole hread
  obtain rfl := Except.ok.inj (hread.symm.trans (hrun _ _ g.numeral_value (Nat.le_refl _)))
  obtain ⟨e, hread', hcheck'⟩ := hlow
  obtain rfl := Except.ok.inj (hread'.symm.trans (hrun v low hv (hle.trans hn)))
  refine ⟨F n, hrun w n hw hn, ?_⟩
  rcases Nat.eq_zero_or_pos n with rfl | hpos
  · -- then the lesser of the two is zero as well
    obtain rfl := Nat.le_zero.mp hle
    exact hcheck'
  · exact hF.check_of_le hcheck hpos hn fun _ => ⟨low, hle, hcheck'⟩

end Gap

/-! ## Digits around a number -/

/-- Every text ends in a run of digits, which may be empty. -/
theorem exists_digits_at_end (cs : List Char) :
    ∃ before a, cs = before ++ a ∧ (∀ c ∈ a, c.isDigit = true) ∧
      ∀ c, [c] <:+ before → c.isDigit = false := by
  induction cs using List.reverseRecOn with
  | nil =>
    refine ⟨[], [], rfl, by simp, ?_⟩
    intro c hc
    simp at hc
  | append_singleton cs c ih =>
    cases hc : c.isDigit with
    | true =>
      obtain ⟨before, a, rfl, hdigit, hbefore⟩ := ih
      refine ⟨before, a ++ [c], List.append_assoc _ _ _, ?_, hbefore⟩
      exact List.forall_mem_append.mpr ⟨hdigit, by simpa using hc⟩
    | false =>
      refine ⟨cs ++ [c], [], (List.append_nil _).symm, by simp, ?_⟩
      rintro c' ⟨t, ht⟩
      obtain ⟨-, hlast⟩ := List.append_inj' ht rfl
      obtain rfl := List.singleton_inj.mp hlast
      exact hc

theorem exists_digits_at_start (cs : List Char) :
    ∃ b behind, cs = b ++ behind ∧ (∀ c ∈ b, c.isDigit = true) ∧
      ∀ c, [c] <+: behind → c.isDigit = false := by
  refine ⟨cs.takeWhile Char.isDigit, cs.dropWhile Char.isDigit,
    List.takeWhile_append_dropWhile.symm, ?_, ?_⟩
  · exact List.all_eq_true.mp List.all_takeWhile
  · rintro c ⟨t, ht⟩
    have hhead := List.head?_dropWhile_not Char.isDigit cs
    rw [← ht] at hhead
    simpa using hhead

theorem digits?_append {a w b : List Char} {n : Nat} (ha : ∀ c ∈ a, c.isDigit = true)
    (hb : ∀ c ∈ b, c.isDigit = true) (hw : Decimal.digits? w = some n) :
    Decimal.digits? (a ++ (w ++ b)) = some (Nat.ofDigitChars 10 (a ++ (w ++ b)) 0) := by
  obtain ⟨hne, hdigit, -⟩ := Decimal.isDigit_of_digits? hw
  refine Decimal.digits?_of_isDigit (by simp [hne]) ?_
  intro c hc
  rcases List.mem_append.mp hc with hc | hc
  · exact ha c hc
  · exact (List.mem_append.mp hc).elim (hdigit c) (hb c)

/-- With the same digits around it the longer and greater numeral makes the greater number. -/
theorem ofDigitChars_append_le {a w w' b : List Char}
    (hle : Nat.ofDigitChars 10 w 0 ≤ Nat.ofDigitChars 10 w' 0) (hlength : w.length ≤ w'.length) :
    Nat.ofDigitChars 10 (a ++ (w ++ b)) 0 ≤ Nat.ofDigitChars 10 (a ++ (w' ++ b)) 0 := by
  have hvalue : ∀ v : List Char, Nat.ofDigitChars 10 (a ++ (v ++ b)) 0 =
      10 ^ b.length * (10 ^ v.length * Nat.ofDigitChars 10 a 0 + Nat.ofDigitChars 10 v 0) +
        Nat.ofDigitChars 10 b 0 := by
    intro v
    rw [Nat.ofDigitChars_append, Nat.ofDigitChars_append,
      Nat.ofDigitChars_eq_ofDigitChars_zero (l := b),
      Nat.ofDigitChars_eq_ofDigitChars_zero (l := v)]
  rw [hvalue, hvalue]
  have hpow : 10 ^ w.length ≤ 10 ^ w'.length := Nat.pow_le_pow_right (by decide) hlength
  have hsum := Nat.add_le_add (Nat.mul_le_mul_right (Nat.ofDigitChars 10 a 0) hpow) hle
  exact Nat.add_le_add_right (Nat.mul_le_mul_left _ hsum) _

/-- **A numeral in any text may be replaced by one that lies between two that are taken**, in
value and in length. -/
theorem rollable_of_between {before behind low w high : List Char} {l n h : Nat}
    (hlow : Decimal.digits? low = some l) (hw : Decimal.digits? w = some n)
    (hhigh : Decimal.digits? high = some h) (hvalue : l ≤ n ∧ n ≤ h)
    (hlength : low.length ≤ w.length ∧ w.length ≤ high.length)
    (hrolllow : Rollable (before ++ (low ++ behind)))
    (hrollhigh : Rollable (before ++ (high ++ behind))) : Rollable (before ++ (w ++ behind)) := by
  obtain ⟨before, a, rfl, ha, hbefore⟩ := exists_digits_at_end before
  obtain ⟨b, behind, rfl, hb, hbehind⟩ := exists_digits_at_start behind
  -- the gap is filled by all the digits that belong to the number
  let g : Gap := {
    before
    behind
    before_isDigit := hbefore
    behind_isDigit := hbehind
    numeral := a ++ (high ++ b)
    top := Nat.ofDigitChars 10 (a ++ (high ++ b)) 0
    numeral_value := digits?_append ha hb hhigh }
  have hfill : ∀ v, before ++ a ++ (v ++ (b ++ behind)) = g.fill (a ++ (v ++ b)) := by
    intro v
    simp only [g, Gap.fill, Gap.onward, List.append_assoc]
  rw [hfill] at hrolllow hrollhigh ⊢
  obtain ⟨-, -, rfl⟩ := Decimal.isDigit_of_digits? hlow
  obtain ⟨-, -, rfl⟩ := Decimal.isDigit_of_digits? hw
  obtain ⟨-, -, rfl⟩ := Decimal.isDigit_of_digits? hhigh
  exact Gap.rollable_of_between hrollhigh (digits?_append ha hb hlow) hrolllow
    (digits?_append ha hb hw) (ofDigitChars_append_le hvalue.1 hlength.1)
    (ofDigitChars_append_le hvalue.2 hlength.2)

end RollMenu.Dice
