import Mathlib
import RollMenu.Proofs.IntegerMenus

/-!
# What a range expands to

A range offers its integers in ascending order, as many as the cap allows and at least one. The
bounds may be any signed words: what the cap adds to the lower one is cut off at the greatest
word, and nothing wraps round there.

There is one place where it does. The cap is a word without a sign, and it is taken as a signed
one. Past the greatest of these it counts downwards, the last integer comes before the first one
and the range is empty. So the main statement says for which caps and bounds the number of
choices is the one that is announced, besides what holds of all of them.
-/

namespace RollMenu

namespace Range

variable {cap : UInt64} {low high : Int}

/-! ## Writing a range -/

/-- A range as it is written with its bounds in plain notation. -/
def written (low high : Int) : String := Decimal.ofInt low ++ "<=>" ++ Decimal.ofInt high

theorem splitArrow_append {low : List Char} (h : '<' ∉ low) (high : List Char) :
    splitArrow (low ++ '<' :: '=' :: '>' :: high) = some (low, high) := by
  induction low with
  | nil => rfl
  | cons c low ih =>
    obtain ⟨hc, hlow⟩ := not_or.mp (mt List.mem_cons.mpr h)
    rw [List.cons_append, splitArrow, ih hlow]
    · rfl
    · rintro rest rfl
      exact absurd rfl hc

/-- **Any two signed words are the bounds of a range.** -/
theorem bounds?_written (hlow : Decimal.Fits low) (hhigh : Decimal.Fits high) :
    bounds? (written low high) = some (low, high) := by
  have htext : (written low high).toList =
      (Decimal.ofInt low).toList ++ '<' :: '=' :: '>' :: (Decimal.ofInt high).toList := by
    simp [written]
  have hblank : ∀ c ∈ (written low high).toList, Text.isBlank c = false := by
    intro c hc
    rw [htext] at hc
    rcases List.mem_append.mp hc with hc | hc
    · exact Decimal.isBlank_of_mem_ofInt hc
    · rcases List.mem_cons.mp hc with rfl | hc
      · rfl
      rcases List.mem_cons.mp hc with rfl | hc
      · rfl
      rcases List.mem_cons.mp hc with rfl | hc
      · rfl
      exact Decimal.isBlank_of_mem_ofInt hc
  have harrow : '<' ∉ (Decimal.ofInt low).toList := by
    intro hmem
    rcases (Decimal.writtenIn_ofInt low).2 '<' hmem with h | h <;> cases h
  have hread : ∀ {n : Int}, Decimal.Fits n →
      Decimal.integer? (Text.trim (Decimal.ofInt n).toList) = some n := by
    intro n hn
    rw [Decimal.integer?_trim_ofInt, Decimal.checked, if_pos hn]
  rw [bounds?, Text.trim_of_not_isBlank hblank, htext, splitArrow_append harrow]
  simp only [bind, Option.bind, hread hlow, hread hhigh]
  rfl

/-! ## How many integers there are -/

/-- How many integers a range has. -/
def size (cap : UInt64) (low high : Int) : Nat := (last cap low high - low + 1).toNat

/-- How many integers are announced: as many as the cap allows or, if they are fewer, all of them.
There is always one. -/
def allowance (cap : UInt64) (low high : Int) : Nat :=
  min (max 1 cap.toNat) ((high - low).toNat + 1)

/-- A cap past the signed words loses the number of all words. -/
theorem reach_of_lt (h : 2 ^ 63 < cap.toNat) : reach cap = (cap.toNat : Int) - 1 - 2 ^ 64 := by
  have hbound : Decimal.wordBound = 2 ^ 64 := rfl
  have hcap : cap.toNat < 2 ^ 64 := cap.toNat_lt
  rw [reach, hbound, Int.bmod_def]
  split <;> omega

theorem size_of_le (hlow : Decimal.Fits low) (hhigh : Decimal.Fits high)
    (h : cap.toNat ≤ 2 ^ 63) : size cap low high = allowance cap low high := by
  obtain ⟨hlow, hlow'⟩ := hlow
  obtain ⟨hhigh, hhigh'⟩ := hhigh
  unfold Decimal.least at hlow hhigh
  unfold Decimal.greatest at hlow' hhigh'
  unfold size last Decimal.saturated allowance Decimal.least Decimal.greatest
  rw [reach_of_le h]
  omega

/-- Past the signed words the least of them is the only integer that a range may have. -/
theorem size_of_lt (hlow : Decimal.Fits low) (h : 2 ^ 63 < cap.toNat) :
    size cap low high = if low = Decimal.least then 1 else 0 := by
  obtain ⟨hlow, hlow'⟩ := hlow
  have hcap : cap.toNat < 2 ^ 64 := cap.toNat_lt
  unfold Decimal.least at hlow
  unfold Decimal.greatest at hlow'
  unfold size last Decimal.saturated Decimal.least Decimal.greatest
  rw [reach_of_lt h]
  split <;> omega

theorem one_le_allowance (cap : UInt64) (low high : Int) : 1 ≤ allowance cap low high := by
  unfold allowance
  omega

theorem allowance_eq_one_iff (h : 2 ^ 63 < cap.toNat) (low high : Int) :
    allowance cap low high = 1 ↔ high ≤ low := by
  unfold allowance
  omega

/-- There are never more, not even below an upper bound that is no signed word. -/
theorem size_le_allowance (cap : UInt64) (hlow : Decimal.Fits low) (high : Int) :
    size cap low high ≤ allowance cap low high := by
  rcases Nat.lt_or_ge (2 ^ 63) cap.toNat with h | h
  · have hone := one_le_allowance cap low high
    rw [size_of_lt hlow h]
    split <;> omega
  · obtain ⟨hlow, -⟩ := hlow
    unfold Decimal.least at hlow
    unfold size last Decimal.saturated allowance Decimal.least
    rw [reach_of_le h]
    omega

/-- **The number is the announced one** unless the cap counts downwards, and even then if there is
nothing but the least word to offer. -/
theorem size_eq_allowance_iff (hlow : Decimal.Fits low) (hhigh : Decimal.Fits high) :
    size cap low high = allowance cap low high ↔
      cap.toNat ≤ 2 ^ 63 ∨ (low = Decimal.least ∧ high = Decimal.least) := by
  rcases Nat.lt_or_ge (2 ^ 63) cap.toNat with h | h
  · have hone := one_le_allowance cap low high
    have hiff := allowance_eq_one_iff h low high
    have hleast : Decimal.least ≤ high := hhigh.1
    rw [size_of_lt hlow h]
    split <;> omega
  · exact ⟨fun _ => Or.inl h, fun _ => size_of_le hlow hhigh h⟩

theorem size_eq_zero_iff (hlow : Decimal.Fits low) (hhigh : Decimal.Fits high) :
    size cap low high = 0 ↔ 2 ^ 63 < cap.toNat ∧ low ≠ Decimal.least := by
  rcases Nat.lt_or_ge (2 ^ 63) cap.toNat with h | h
  · rw [size_of_lt hlow h]
    split <;> omega
  · have hone := one_le_allowance cap low high
    rw [size_of_le hlow hhigh h]
    omega

/-! ## What is offered -/

/-- So many integers in ascending order, as they are offered. -/
def ascending (low : Int) (n : Nat) : List Choice :=
  (List.range n).map fun (i : Nat) =>
    { value := (low + i).repr, label := (low + i).repr, id := "id" ++ (i + 1).repr,
      direct := false, next := none }

theorem ofIntegers_integers (cap : UInt64) (low high : Int) :
    Choice.ofIntegers (integers cap low high) = ascending low (size cap low high) := by
  refine List.ext_getElem ?_ ?_
  · simp [Choice.ofIntegers, Choice.number, integers, ascending, size]
  · intro i _ _
    simp [Choice.ofIntegers, Choice.number, integers, ascending, Choice.idAt, Offer.plain,
      Decimal.ofInt_eq_repr]

/--
**A range offers its integers from the lower bound on, each by its decimal text.** Any two signed
words can be its bounds, in whichever way they are written. There are as many choices as the cap
and the bounds announce if and only if the cap is at most 2 ^ 63 or the least word is the only one
to offer. Otherwise there are fewer, and none at all unless the least word is the lower bound. None
is ever out of bounds.
-/
theorem offers_allowance_iff {low high : Int} (hlow : Decimal.Fits low)
    (hhigh : Decimal.Fits high) (limits : Limits) (expression : String) :
    bounds? (written low high) = some (low, high) ∧
    ∀ text, bounds? text = some (low, high) → ∃ n,
      (format.offers limits text).map Choice.number = some (ascending low n) ∧
      Spec.choices Spec.builtin limits expression (some text) = .ok (ascending low n) ∧
      (n = allowance limits.rangeCap low high ↔
        limits.rangeCap.toNat ≤ 2 ^ 63 ∨ (low = Decimal.least ∧ high = Decimal.least)) ∧
      (n = 0 ↔ 2 ^ 63 < limits.rangeCap.toNat ∧ low ≠ Decimal.least) ∧
      n ≤ allowance limits.rangeCap low high ∧ ∀ i < n, low + (i : Int) ≤ max low high := by
  refine ⟨bounds?_written hlow hhigh, fun text htext => ?_⟩
  have hle := size_le_allowance limits.rangeCap hlow high
  refine ⟨size limits.rangeCap low high, ?_, ?_, size_eq_allowance_iff hlow hhigh,
    size_eq_zero_iff hlow hhigh, hle, ?_⟩
  · rw [← ofIntegers_integers]
    exact congrArg (Option.map Choice.number) (congrArg (Option.map _) htext)
  · rw [Spec.choices_of_range htext, ofIntegers_integers]
  · intro i hi
    unfold allowance at hle
    omega

/-- Three integers up to the greatest word, with the largest cap that is one of the signed words
when it is lowered by one, and a spelling with blanks, a sign and zeros. -/
theorem offers_allowance_iff_greatest :
    let limits : Limits := { rangeCap := 0x8000000000000000 }
    let text := " +9223372036854775805 <=> 009223372036854775807"
    Decimal.Fits 9223372036854775805 ∧ Decimal.Fits Decimal.greatest ∧
      bounds? text = some (9223372036854775805, Decimal.greatest) ∧
      Spec.choices Spec.builtin limits "" (some text) = .ok (ascending 9223372036854775805 3) := by
  intro limits text
  have hlow : Decimal.Fits 9223372036854775805 := by decide
  have hhigh : Decimal.Fits Decimal.greatest := by decide
  have htext : bounds? text = some (9223372036854775805, Decimal.greatest) := by cbv
  obtain ⟨-, hall⟩ := offers_allowance_iff hlow hhigh limits ""
  obtain ⟨n, -, hchoices, hexact, -⟩ := hall text htext
  have hn : n = 3 := (hexact.mpr (Or.inl (by decide))).trans (by decide)
  rw [hn] at hchoices
  exact ⟨hlow, hhigh, htext, hchoices⟩

/-- Under the greatest cap the range from 1 to 5 offers nothing, where five choices are
announced. -/
theorem offers_nothing_of_greatest_cap :
    let limits : Limits := { rangeCap := 0xFFFFFFFFFFFFFFFF }
    bounds? "1<=>5" = some (1, 5) ∧ allowance limits.rangeCap 1 5 = 5 ∧
      (format.offers limits "1<=>5").map Choice.number = some [] ∧
      (format.offers limits "1<=>5").map Choice.number ≠
        some (ascending 1 (allowance limits.rangeCap 1 5)) := by
  intro limits
  have hnothing : (format.offers limits "1<=>5").map Choice.number = some [] := by cbv
  refine ⟨by cbv, by decide, hnothing, ?_⟩
  rw [hnothing]
  decide

end Range

end RollMenu
