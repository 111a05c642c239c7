import Mathlib.Data.List.Infix
import RollMenu.Dice.Reader
import RollMenu.Proofs.Compile

/-!
# What readers leave behind

Every reader of the dice grammar takes characters off the front of a text and hands back
the rest. So what a chain of operands has left gets shorter with each round, and the fuel
that it is given never runs out: `chainFrom` is the chain without it.

The larger readers are also taken apart here, by the character that they look at first.
-/

namespace RollMenu

/-! ## Digits -/

theorem Decimal.isDigit_of_digits? {w : List Char} {n : Nat} (h : digits? w = some n) :
    w ≠ [] ∧ (∀ c ∈ w, c.isDigit = true) ∧ n = Nat.ofDigitChars 10 w 0 := by
  unfold digits? at h
  split at h
  · cases h
  split at h
  · rename_i hne hall
    exact ⟨by simpa using hne, List.all_eq_true.mp hall, (Option.some.inj h).symm⟩
  · cases h

theorem Decimal.digits?_of_isDigit {w : List Char} (hne : w ≠ [])
    (hdigit : ∀ c ∈ w, c.isDigit = true) : digits? w = some (Nat.ofDigitChars 10 w 0) := by
  have hempty : w.isEmpty = false := by simpa using hne
  have hall : w.all Char.isDigit = true := List.all_eq_true.mpr hdigit
  simp only [digits?, hempty, hall, Bool.false_eq_true, if_false, if_true]

theorem Text.isBlank_of_isDigit {c : Char} (h : c.isDigit = true) : isBlank c = false := by
  have hrange : 48 ≤ c.toNat ∧ c.toNat ≤ 57 := Char.isDigit_iff_toNat.mp h
  simp only [isBlank, blankRanges, List.any_cons, List.any_nil, Bool.or_false,
    Bool.or_eq_false_iff, Bool.and_eq_false_iff, decide_eq_false_iff_not]
  omega

theorem span_append {p : Char → Bool} {xs : List Char} (h : ∃ c ∈ xs, p c = false)
    (ys : List Char) :
    (xs ++ ys).takeWhile p = xs.takeWhile p ∧
      (xs ++ ys).dropWhile p = xs.dropWhile p ++ ys := by
  induction xs with
  | nil => simp at h
  | cons x xs ih =>
    cases hx : p x with
    | false => simp [hx]
    | true =>
      have hxs : ∃ c ∈ xs, p c = false := by simpa [hx] using h
      simp [hx, ih hxs]

namespace Dice.Reader

variable {α β : Type} {cs : List Char}

/-! ## Letters and numbers -/

/-- What the reader hands back is an end of what it was given. -/
def Advances (r : Reader α) : Prop :=
  ∀ ⦃cs : List Char⦄ ⦃a : α⦄ ⦃rest : List Char⦄, r cs = .ok (a, rest) → rest <:+ cs

theorem advances_ok (a : α) : Advances fun cs => .ok (a, cs) := by
  intro cs a rest h
  obtain ⟨-, rfl⟩ := Prod.mk.inj (Except.ok.inj h)
  exact List.suffix_rfl

theorem advances_error (stop : Stop) :
    Advances fun _ => (.error stop : Except Stop (α × List Char)) := by
  intro cs a rest h
  cases h

/-- **Two readers in a row.** -/
theorem Advances.bind {r : Reader α} {f : α → Reader β} (hr : r.Advances)
    (hf : ∀ a, (f a).Advances) : Advances fun cs => r cs >>= fun x => f x.1 x.2 := by
  intro cs b rest h
  obtain ⟨⟨a, cs'⟩, hread, h⟩ := exists_of_bind_ok h
  exact (hf a h).trans (hr hread)

theorem dropBlank_suffix (cs : List Char) : Text.dropBlank cs <:+ cs :=
  List.dropWhile_suffix Text.isBlank

theorem suffix_of_dropBlank {c : Char} {rest : List Char} (h : Text.dropBlank cs = c :: rest) :
    rest <:+ cs ∧ rest.length < cs.length := by
  have hcons : c :: rest <:+ cs := h ▸ dropBlank_suffix cs
  refine ⟨(List.suffix_cons c rest).trans hcons, ?_⟩
  have hle := hcons.length_le
  rw [List.length_cons] at hle
  omega

theorem digits_advances (max : Nat) : (digits max).Advances := by
  intro cs n rest h
  unfold digits at h
  dsimp only at h
  split at h
  · cases h
  split at h
  · cases h
  · obtain ⟨rfl, rfl⟩ := Prod.mk.inj (Except.ok.inj h)
    exact List.dropWhile_suffix Char.isDigit

/-- A numeral is read to its end if no digit follows. -/
theorem digits_append {max n : Nat} {w rest : List Char} (hw : Decimal.digits? w = some n)
    (hrest : ∀ c, [c] <+: rest → c.isDigit = false) :
    digits max (w ++ rest) = if max < n then .error .tooLarge else .ok (n, rest) := by
  obtain ⟨hne, hdigit, rfl⟩ := Decimal.isDigit_of_digits? hw
  have hspan : rest.takeWhile Char.isDigit = [] ∧ rest.dropWhile Char.isDigit = rest := by
    cases rest with
    | nil => simp
    | cons c cs => simp [hrest c ⟨cs, rfl⟩]
  have htake : (w ++ rest).takeWhile Char.isDigit = w := by
    rw [List.takeWhile_append_of_pos hdigit, hspan.1, List.append_nil]
  have hdrop : (w ++ rest).dropWhile Char.isDigit = rest := by
    rw [List.dropWhile_append_of_pos hdigit, hspan.2]
  rw [digits, htake, hdrop, if_neg (by simpa using hne)]

/-- How many dice a letter says are kept, if it says that. -/
def keepOf : Char → Option (Nat → Keep)
  | 'k' | 'K' => some .highest
  | 'l' | 'L' => some .lowest
  | _ => none

theorem keep_cons (c : Char) (cs : List Char) :
    keep (c :: cs) = match keepOf c with
      | some kept => do
        let (n, rest) ← digits maxInPool cs
        return (some (kept n), rest)
      | none => .ok (none, c :: cs) := by
  unfold keep
  split
  case h_5 hk hK hl hL =>
    have hnone : keepOf c = none := by
      unfold keepOf
      split
      · exact absurd rfl (hk cs)
      · exact absurd rfl (hK cs)
      · exact absurd rfl (hl cs)
      · exact absurd rfl (hL cs)
      · rfl
    rw [hnone]
  all_goals
    rename_i h
    obtain ⟨rfl, rfl⟩ := List.cons.inj h
    rfl

theorem keep_advances : keep.Advances := by
  intro cs k rest h
  cases cs with
  | nil => exact advances_ok none h
  | cons c cs =>
    rw [keep_cons] at h
    split at h
    · rename_i kept _
      have hread := (digits_advances maxInPool).bind fun n => advances_ok (some (kept n))
      exact (hread h).trans (List.suffix_cons c cs)
    · exact advances_ok none h

theorem pool_advances (count : Nat) : (pool count).Advances :=
  (digits_advances maxInPool).bind fun sides =>
    keep_advances.bind fun keep => advances_ok (Expression.pool { count, sides, keep })

/-- Reads on behind a number. -/
def afterNumber (n : Nat) : Reader Expression := fun cs =>
  match cs with
  | 'd' :: rest | 'D' :: rest => if maxInPool < n then .error .tooLarge else pool n rest
  | _ => .ok (.number n, cs)

theorem numberOrPool_eq (cs : List Char) :
    numberOrPool cs = digits maxNumber cs >>= fun number => afterNumber number.1 number.2 := rfl

theorem afterNumber_cons (n : Nat) (c : Char) (cs : List Char) :
    afterNumber n (c :: cs) =
      if c = 'd' ∨ c = 'D' then if maxInPool < n then .error .tooLarge else pool n cs
      else .ok (.number n, c :: cs) := by
  unfold afterNumber
  split
  case h_3 hd hD =>
    rw [if_neg]
    rintro (rfl | rfl)
    · exact hd cs rfl
    · exact hD cs rfl
  all_goals
    rename_i h
    obtain ⟨rfl, rfl⟩ := List.cons.inj h
    rfl

theorem afterNumber_advances (n : Nat) : (afterNumber n).Advances := by
  intro cs e rest h
  cases cs with
  | nil => exact advances_ok (Expression.number n) h
  | cons c cs =>
    rw [afterNumber_cons] at h
    split at h
    · split at h
      · cases h
      · exact (pool_advances n h).trans (List.suffix_cons c cs)
    · exact advances_ok (Expression.number n) h

theorem numberOrPool_advances : numberOrPool.Advances :=
  (digits_advances maxNumber).bind afterNumber_advances

/-! ## Chains without fuel -/

section Chain

variable {operator : Char → Option Operator} {operand : Reader Expression}

theorem chainOn_succ (fuel : Nat) (left : Expression) (cs : List Char) :
    chainOn operator operand (fuel + 1) left cs =
      match Text.dropBlank cs with
      | [] => .ok (left, [])
      | c :: rest =>
        match operator c with
        | none => .ok (left, c :: rest)
        | some op =>
          operand rest >>= fun right =>
            chainOn operator operand fuel (.binary op left right.1) right.2 := rfl

/-- Fuel for the length of the text is as good as any more. -/
theorem chainOn_eq_of_le (hoperand : operand.Advances) {fuel fuel' : Nat} {left : Expression}
    (h : cs.length ≤ fuel) (h' : cs.length ≤ fuel') :
    chainOn operator operand fuel left cs = chainOn operator operand fuel' left cs := by
  induction fuel generalizing fuel' left cs with
  | zero =>
    obtain rfl := List.length_eq_zero_iff.mp (Nat.le_zero.mp h)
    cases fuel' <;> rfl
  | succ fuel ih =>
    cases fuel' with
    | zero =>
      obtain rfl := List.length_eq_zero_iff.mp (Nat.le_zero.mp h')
      rfl
    | succ fuel' =>
      rw [chainOn_succ, chainOn_succ]
      split
      · rfl
      · rename_i c rest hcs
        have hshorter := (suffix_of_dropBlank hcs).2
        split
        · rfl
        · -- one round has taken the operator at least
          cases hright : operand rest with
          | error stop => rfl
          | ok right =>
            have hle := (hoperand hright).length_le
            have hfuel : right.2.length ≤ fuel := by omega
            have hfuel' : right.2.length ≤ fuel' := by omega
            exact ih hfuel hfuel'

/-- The chain that goes on from an operand. -/
def chainFrom (operator : Char → Option Operator) (operand : Reader Expression)
    (left : Expression) : Reader Expression :=
  fun cs => chainOn operator operand cs.length left cs

theorem chain_eq (cs : List Char) :
    chain operator operand cs =
      operand cs >>= fun first => chainFrom operator operand first.1 first.2 := rfl

theorem chainFrom_eq (hoperand : operand.Advances) (left : Expression) (cs : List Char) :
    chainFrom operator operand left cs =
      match Text.dropBlank cs with
      | [] => .ok (left, [])
      | c :: rest =>
        match operator c with
        | none => .ok (left, c :: rest)
        | some op =>
          operand rest >>= fun right =>
            chainFrom operator operand (.binary op left right.1) right.2 := by
  rw [chainFrom, chainOn_eq_of_le hoperand (Nat.le_refl _) (Nat.le_succ _), chainOn_succ]
  split
  · rfl
  · rename_i c rest hcs
    have hshorter := (suffix_of_dropBlank hcs).2
    split
    · rfl
    · cases hright : operand rest with
      | error stop => rfl
      | ok right =>
        have hle := (hoperand hright).length_le
        exact chainOn_eq_of_le hoperand (by omega) (Nat.le_refl _)

/-- By induction on the text, which gets shorter with each operand. -/
theorem chainFrom_advances (hoperand : operand.Advances) (left : Expression) :
    (chainFrom operator operand left).Advances := by
  intro cs e rest h
  induction hn : cs.length using Nat.strongRecOn generalizing cs left with
  | ind n ih =>
    subst hn
    rw [chainFrom_eq hoperand] at h
    split at h
    · obtain ⟨rfl, rfl⟩ := Prod.mk.inj (Except.ok.inj h)
      exact List.nil_suffix
    · rename_i c rest' hcs
      obtain ⟨hsuffix, hshorter⟩ := suffix_of_dropBlank hcs
      split at h
      · obtain ⟨rfl, rfl⟩ := Prod.mk.inj (Except.ok.inj h)
        exact hcs ▸ dropBlank_suffix cs
      · obtain ⟨⟨right, cs'⟩, hright, h⟩ := exists_of_bind_ok h
        have hrest := hoperand hright
        have hle := hrest.length_le
        exact ((ih cs'.length (by omega) _ h rfl).trans hrest).trans hsuffix

theorem chain_advances (hoperand : operand.Advances) : (chain operator operand).Advances :=
  hoperand.bind (chainFrom_advances hoperand)

theorem expressionOf_advances (hoperand : operand.Advances) : (expressionOf operand).Advances :=
  chain_advances (chain_advances hoperand)

end Chain

/-! ## Operands in parts -/

/-- Reads on behind a minus. -/
def negation (inner : Option (Reader Expression)) : Reader Expression := fun cs =>
  match inner with
  | none => .error .tooDeep
  | some inner => inner cs >>= fun e => .ok (.negate e.1, e.2)

/-- Reads on behind an opening parenthesis. -/
def parenthesized (inner : Option (Reader Expression)) : Reader Expression := fun cs =>
  match inner with
  | none => .error .tooDeep
  | some inner => expressionOf inner cs >>= fun e => closing e.1 e.2
where
  /-- Reads the parenthesis that closes. -/
  closing (e : Expression) : Reader Expression := fun cs =>
    match Text.dropBlank cs with
    | ')' :: rest => .ok (e, rest)
    | rest => .error (.unexpected rest)

/-- Reads on behind an apostrophe. -/
def apostrophe : Reader Expression := fun cs =>
  match cs with
  | '\'' :: rest => .ok (.empty, rest)
  | _ => .error (.unexpected cs)

theorem apostrophe_cons (c : Char) (cs : List Char) :
    apostrophe (c :: cs) =
      if c = '\'' then .ok (.empty, cs) else .error (.unexpected (c :: cs)) := by
  unfold apostrophe
  split
  · rename_i h
    obtain ⟨rfl, rfl⟩ := List.cons.inj h
    rfl
  · rename_i hne
    rw [if_neg]
    rintro rfl
    exact hne cs rfl

theorem closing_cons (e : Expression) {c : Char} {cs rest : List Char}
    (h : Text.dropBlank cs = c :: rest) :
    parenthesized.closing e cs =
      if c = ')' then .ok (e, rest) else .error (.unexpected (c :: rest)) := by
  unfold parenthesized.closing
  rw [h]
  split
  · rename_i h
    obtain ⟨rfl, rfl⟩ := List.cons.inj h
    rfl
  · rename_i hne
    rw [if_neg]
    rintro rfl
    exact hne rest rfl

/-- Which part of the grammar an operand belongs to shows in its first character. -/
theorem operandOver_cons (inner : Option (Reader Expression)) {c : Char} {cs rest : List Char}
    (h : Text.dropBlank cs = c :: rest) :
    operandOver inner cs =
      if c = '-' then negation inner rest
      else if c = '(' then parenthesized inner rest
      else if c = '\'' then apostrophe rest
      else if c = 'd' ∨ c = 'D' then pool 1 rest
      else numberOrPool (c :: rest) := by
  unfold operandOver
  rw [h]
  split
  case h_6 hminus hopen hapostrophe hd hD =>
    have hc : ∀ c', (∀ rest', c :: rest ≠ c' :: rest') → c ≠ c' := by
      rintro c' hne rfl
      exact hne rest rfl
    rw [if_neg (hc _ hminus), if_neg (hc _ hopen), if_neg (hc _ hapostrophe), if_neg]
    rintro (hc' | hc')
    · exact hc _ hd hc'
    · exact hc _ hD hc'
  all_goals
    rename_i h
    obtain ⟨rfl, rfl⟩ := List.cons.inj h
    rfl

theorem closing_advances (e : Expression) : Advances (parenthesized.closing e) := by
  intro cs e' rest h
  unfold parenthesized.closing at h
  split at h
  · rename_i hclose
    obtain ⟨-, rfl⟩ := Prod.mk.inj (Except.ok.inj h)
    exact (suffix_of_dropBlank hclose).1
  · cases h

theorem apostrophe_advances : apostrophe.Advances := by
  intro cs e rest h
  unfold apostrophe at h
  split at h
  · obtain ⟨-, rfl⟩ := Prod.mk.inj (Except.ok.inj h)
    exact List.suffix_cons _ _
  · cases h

section

variable {inner : Option (Reader Expression)} (hinner : ∀ r, inner = some r → r.Advances)
include hinner

theorem negation_advances : (negation inner).Advances := by
  unfold negation
  cases hin : inner with
  | none => exact advances_error _
  | some r => exact (hinner r hin).bind fun e => advances_ok (Expression.negate e)

theorem parenthesized_advances : (parenthesized inner).Advances := by
  unfold parenthesized
  cases hin : inner with
  | none => exact advances_error _
  | some r => exact (expressionOf_advances (hinner r hin)).bind closing_advances

theorem operandOver_advances : (operandOver inner).Advances := by
  intro cs e rest h
  cases hcs : Text.dropBlank cs with
  | nil =>
    rw [operandOver, hcs] at h
    cases h
  | cons c cs' =>
    have hsuffix := (suffix_of_dropBlank hcs).1
    rw [operandOver_cons inner hcs] at h
    split at h
    · exact (negation_advances hinner h).trans hsuffix
    split at h
    · exact (parenthesized_advances hinner h).trans hsuffix
    split at h
    · exact (apostrophe_advances h).trans hsuffix
    split at h
    · exact (pool_advances _ h).trans hsuffix
    · exact (numberOrPool_advances h).trans (hcs ▸ dropBlank_suffix cs)

end

theorem operand_advances (levels : Nat) : (operand levels).Advances := by
  induction levels with
  | zero =>
    refine operandOver_advances ?_
    intro r hr
    cases hr
  | succ levels ih =>
    refine operandOver_advances ?_
    intro r hr
    obtain rfl := Option.some.inj hr
    exact ih

end Dice.Reader

end RollMenu
