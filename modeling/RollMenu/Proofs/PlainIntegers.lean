import RollMenu.Proofs.Corners
import RollMenu.Proofs.CoveredValues

/-!
# Integers in plain notation

An integer can be written in many ways, and a dice expression knows fewer of them. Where a
placeholder writes its integers in plain notation, they are covered by its corner cases as
soon as they are all natural numbers, or the text around the placeholder keeps them out of
pools. Whatever a range offers is in plain notation.
-/

namespace RollMenu

namespace Parameter

variable {p : Parameter}

/-- Whether integers are written in their plain notation and none of them ends the selection. -/
def isPlain (p : Parameter) : Bool :=
  p.choices.all fun c => c.numeric?.all fun n => !c.direct && c.value == Decimal.ofInt n

/-- Whether all integers are natural numbers. -/
def isNatural (p : Parameter) : Bool := p.choices.all fun c => c.numeric?.all fun n => 0 ≤ n

theorem isPlain_iff : p.isPlain = true ↔ ∀ c ∈ p.choices, ∀ n, c.numeric? = some n →
    c.direct = false ∧ c.value = Decimal.ofInt n := by
  simp [isPlain, Option.all_eq_true]

theorem isNatural_iff : p.isNatural = true ↔ ∀ c ∈ p.choices, ∀ n, c.numeric? = some n → 0 ≤ n := by
  simp [isNatural, Option.all_eq_true]

/-- The selection goes on after an integer in plain notation. -/
theorem followed_of_isPlain (hp : p.isPlain = true) {c : Choice} {n : Int}
    (hc : c ∈ Validation.corners p.choices) (hn : c.numeric? = some n) :
    p.Followed (Decimal.ofInt n) := by
  have hmem := Validation.mem_of_mem_corners hc
  obtain ⟨-, hvalue⟩ := isPlain_iff.mp hp c hmem n hn
  refine ⟨?_, c, hc, hvalue⟩
  obtain ⟨d, hd⟩ := exists_choiceByValue hmem
  obtain ⟨hdmem, hdvalue⟩ := mem_of_choiceByValue hd
  have hdn : d.numeric? = some n := by rw [Choice.numeric?, hdvalue, ← Choice.numeric?, hn]
  rw [← hvalue]
  exact mem_continuing_iff.mpr ⟨d, hd, (isPlain_iff.mp hp d hdmem n hdn).1⟩

end Parameter

theorem hasNumber_ofNat (n : Nat) :
    HasNumber [] [] (Decimal.ofInt n) (Nat.toDigits 10 n) n where
  toList_eq := by
    rw [List.nil_append, List.append_nil]
    exact Nat.toList_repr
  digits := Decimal.digits?_toDigits n

theorem hasNumber_neg (n : Nat) :
    HasNumber ['-'] [] (Decimal.ofInt (.negSucc n)) (Nat.toDigits 10 (n + 1)) (n + 1) where
  toList_eq := by
    rw [List.append_nil, Decimal.ofInt, String.toList_append, Nat.toList_repr]
    rfl
  digits := Decimal.digits?_toDigits (n + 1)

theorem length_toDigits_le {m n : Nat} (h : m ≤ n) :
    (Nat.toDigits 10 m).length ≤ (Nat.toDigits 10 n).length := by
  have hpos := Nat.length_toDigits_pos (b := 10) (n := n)
  rw [Nat.length_toDigits_le_iff (by decide) hpos]
  exact Nat.lt_of_le_of_lt h
    ((Nat.length_toDigits_le_iff (by decide) hpos).mp (Nat.le_refl _))

/-- A minus sign in front keeps a number apart. -/
theorem Template.isApart_minus {t : Template} {i : Nat} (h : t.isApart i [] [] = true) :
    t.isApart i ['-'] [] = true := by
  obtain ⟨-, hhead⟩ := Bool.and_eq_true_iff.mp h
  refine Bool.and_eq_true_iff.mpr ⟨?_, hhead⟩
  rw [List.getLast?_concat]
  rfl

namespace Parameter

variable {m : Menu} {p : Parameter} {c : Choice} {n : Int}

theorem followed_of_special (hc : c ∈ p.choices) (h : Validation.isSpecial c = true)
    (hv : c.value ∈ p.continuing) : p.Followed c.value :=
  ⟨hv, c, Validation.mem_corners_of_special hc h, rfl⟩

/-- A natural number lies between the least and the greatest one. -/
theorem covered_of_isNatural (hp : p.isPlain = true) (hnatural : p.isNatural = true)
    (hc : c ∈ p.choices) (hn : c.numeric? = some n) : m.Covered c.value p := by
  obtain ⟨low, c₁, high, c₂, hc₁, hlow, hc₂, hhigh, hle, hle'⟩ :=
    Validation.exists_corners_of_numeric hc hn
  have hpos := isNatural_iff.mp hnatural c₁ (Validation.mem_of_mem_corners hc₁) low hlow
  obtain ⟨low, rfl⟩ := Int.eq_ofNat_of_zero_le hpos
  obtain ⟨n, rfl⟩ := Int.eq_ofNat_of_zero_le (hpos.trans hle)
  obtain ⟨high, rfl⟩ := Int.eq_ofNat_of_zero_le ((hpos.trans hle).trans hle')
  have hlown : low ≤ n := Int.ofNat_le.mp hle
  have hnhigh : n ≤ high := Int.ofNat_le.mp hle'
  rw [(isPlain_iff.mp hp c hc _ hn).2]
  exact .between (followed_of_isPlain hp hc₁ hlow) (followed_of_isPlain hp hc₂ hhigh)
    (hasNumber_ofNat low) (hasNumber_ofNat n) (hasNumber_ofNat high) ⟨hlown, hnhigh⟩
    ⟨length_toDigits_le hlown, length_toDigits_le hnhigh⟩

/-- An integer that stays out of pools is covered by the greatest one, or by the least one if it
is negative. -/
theorem covered_of_isApart (hp : p.isPlain = true)
    (hapart : m.template.isApart p.placeholder.index [] [] = true) (hc : c ∈ p.choices)
    (hn : c.numeric? = some n) (hv : c.value ∈ p.continuing) : m.Covered c.value p := by
  obtain ⟨low, c₁, high, c₂, hc₁, hlow, hc₂, hhigh, hle, hle'⟩ :=
    Validation.exists_corners_of_numeric hc hn
  have hvalue := (isPlain_iff.mp hp c hc n hn).2
  cases n with
  | ofNat n =>
    rcases Nat.eq_zero_or_pos n with rfl | hpos
    · -- zero is a corner case wherever it is offered
      refine .followed (followed_of_special hc ?_ hv)
      rw [Validation.isSpecial, hvalue]
      rfl
    · obtain ⟨high, rfl⟩ := Int.eq_ofNat_of_zero_le (Int.le_trans (Int.natCast_nonneg n) hle')
      have hnhigh : n ≤ high := Int.ofNat_le.mp hle'
      rw [hvalue]
      exact .below (followed_of_isPlain hp hc₂ hhigh) (hasNumber_ofNat n) (hasNumber_ofNat high)
        ⟨hpos, hnhigh⟩ hapart
  | negSucc n =>
    -- without its sign the least integer has the greatest number
    obtain ⟨low, rfl⟩ := Int.eq_negSucc_of_lt_zero
      (Int.lt_of_le_of_lt hle (Int.negSucc_lt_zero n))
    have hnlow : n + 1 ≤ low + 1 := by omega
    rw [hvalue]
    exact .below (followed_of_isPlain hp hc₁ hlow) (hasNumber_neg n) (hasNumber_neg low)
      ⟨Nat.succ_pos n, hnlow⟩ (Template.isApart_minus hapart)

/-- **Integers in plain notation are covered** if they are natural numbers or stay out of pools,
and so is everything that is no integer. -/
theorem covered_of_isPlain (hp : p.isPlain = true)
    (h : p.isNatural = true ∨ m.template.isApart p.placeholder.index [] [] = true) {v : String}
    (hv : v ∈ p.continuing) : m.Covered v p := by
  obtain ⟨c, hc, -⟩ := mem_continuing_iff.mp hv
  obtain ⟨hmem, rfl⟩ := mem_of_choiceByValue hc
  cases hn : c.numeric? with
  | none => exact .followed (followed_of_special hmem (by simp [Validation.isSpecial, hn]) hv)
  | some n =>
    rcases h with hnatural | hapart
    · exact covered_of_isNatural hp hnatural hmem hn
    · exact covered_of_isApart hp hapart hmem hn hv

end Parameter

/-! ## Ranges -/

theorem Text.trim_of_not_isBlank {cs : List Char} (h : ∀ c ∈ cs, isBlank c = false) :
    trim cs = cs := by
  have hkeep : ∀ ds : List Char, (∀ c ∈ ds, isBlank c = false) → dropBlank ds = ds := by
    intro ds hds
    cases ds with
    | nil => rfl
    | cons d ds =>
      rw [dropBlank, List.dropWhile_cons_of_neg]
      rw [hds d List.mem_cons_self]
      exact Bool.false_ne_true
  rw [trim, hkeep cs h, hkeep cs.reverse, List.reverse_reverse]
  intro c hc
  exact h c (List.mem_reverse.mp hc)

namespace Decimal

theorem eq_of_checked {i k : Int} (h : checked i = some k) : k = i ∧ Fits i := by
  unfold checked at h
  split at h
  · exact ⟨(Option.some.inj h).symm, ‹_›⟩
  · cases h

theorem isBlank_of_mem_ofInt {n : Int} {c : Char} (hc : c ∈ (ofInt n).toList) :
    Text.isBlank c = false := by
  rcases (writtenIn_ofInt n).2 c hc with hdigit | rfl
  · exact Text.isBlank_of_isDigit hdigit
  · rfl

/-- **An integer in plain notation reads back as itself**, if it fits. -/
theorem integer?_trim_ofInt (n : Int) : integer? (Text.trim (ofInt n).toList) = checked n := by
  rw [Text.trim_of_not_isBlank fun c hc => isBlank_of_mem_ofInt hc]
  cases n with
  | ofNat n =>
    have hdigits := digits?_toDigits n
    obtain ⟨hne, hdigit, -⟩ := isDigit_of_digits? hdigits
    obtain ⟨c, cs, hcs⟩ := List.exists_cons_of_ne_nil hne
    have hc := hdigit c (by rw [hcs]; exact List.mem_cons_self)
    rw [ofInt, Nat.toList_repr]
    rw [hcs] at hdigits ⊢
    unfold integer?
    -- a sign is no digit
    split
    · rename_i heq
      obtain ⟨rfl, -⟩ := List.cons.inj heq
      cases hc
    · rename_i heq
      obtain ⟨rfl, -⟩ := List.cons.inj heq
      cases hc
    · rw [hdigits, Option.bind_some]
      rfl
  | negSucc n =>
    have hminus : "-".toList = ['-'] := rfl
    have hneg : -((n + 1 : Nat) : Int) = .negSucc n := rfl
    rw [ofInt, String.toList_append, Nat.toList_repr, hminus, List.singleton_append, integer?,
      digits?_toDigits, Option.bind_some, hneg]

end Decimal

/-! ### What is offered -/

/-- The choices of a placeholder that offers these integers. -/
def Choice.ofIntegers (ns : List Int) : List Choice :=
  Choice.number (ns.map fun n => Offer.plain (Decimal.ofInt n))

/-- A range offers its integers. -/
theorem Spec.choices_of_range {limits : Limits} {expression text : String} {low high : Int}
    (h : Range.bounds? text = some (low, high)) :
    choices builtin limits expression (some text) =
      .ok (Choice.ofIntegers (Range.integers limits.rangeCap low high)) := by
  have hfind : builtin.find? (·.accepts text) = some Range.format :=
    List.find?_cons_of_pos (p := fun f : SpecFormat => f.accepts text)
      (Option.isSome_iff_exists.mpr ⟨_, h⟩)
  have hread : Range.format.offers limits text =
      some ((Range.integers limits.rangeCap low high).map fun n =>
        Offer.plain (Decimal.ofInt n)) :=
    congrArg (Option.map fun bounds : Int × Int =>
      (Range.integers limits.rangeCap bounds.1 bounds.2).map fun n =>
        Offer.plain (Decimal.ofInt n)) h
  simp only [choices, Option.bind_some, hfind, Option.map_some, hread]
  rfl

/-- Integers that are offered as such are in plain notation. -/
theorem Parameter.isPlain_of_integers {p : Parameter} {index count : Nat} {ns : List Int}
    (h : p.choices = Menu.link index count (Choice.ofIntegers ns)) : p.isPlain = true := by
  refine isPlain_iff.mpr ?_
  intro c hc k hk
  rw [h] at hc
  obtain ⟨o, ho, hvalue, -, hdirect⟩ := Menu.mem_link_number hc
  obtain ⟨n, -, rfl⟩ := List.mem_map.mp ho
  rw [Choice.numeric?, hvalue, Offer.plain, Decimal.integer?_trim_ofInt] at hk
  rw [hdirect, hvalue, (Decimal.eq_of_checked hk).1]
  exact ⟨rfl, rfl⟩

/-- **What a range offers is in plain notation.** -/
theorem Menu.isPlain_of_range {limits : Limits} {count : Nat} {p : Placeholder} {text : String}
    {parameter : Parameter} (h : expand Spec.builtin limits count p = .ok parameter)
    (hspec : p.spec = some text) (hrange : (Range.bounds? text).isSome = true) :
    parameter.isPlain = true := by
  obtain ⟨⟨low, high⟩, hbounds⟩ := Option.isSome_iff_exists.mp hrange
  have hchoices : Spec.choices Spec.builtin limits p.expression p.spec =
      .ok (Choice.ofIntegers (Range.integers limits.rangeCap low high)) := by
    rw [hspec]
    exact Spec.choices_of_range hbounds
  exact Parameter.isPlain_of_integers (choices_of_expand hchoices h)

end RollMenu
