import Mathlib.Data.List.DropRight
import RollMenu.Proofs.Grammar
import RollMenu.Proofs.Readers

/-!
# What is read derives

Every reader takes off the front of a text something of its own category, and with it the
blanks that follow. So a text that reads into an expression derives it in the grammar.

A chain is the case where this is not said of the reader alone. It holds an expression in
hand whose text has been read before, and what it reads on is joined to that.
-/

namespace RollMenu

theorem Text.exists_blank_append (cs : List Char) : ∃ b, Blank b ∧ cs = b ++ dropBlank cs :=
  ⟨cs.takeWhile isBlank, List.all_eq_true.mp List.all_takeWhile,
    List.takeWhile_append_dropWhile.symm⟩

theorem Text.dropBlank_append {b : List Char} (hb : Blank b) (cs : List Char) :
    dropBlank (b ++ cs) = dropBlank cs :=
  List.dropWhile_append_of_pos hb

theorem Text.dropBlank_cons {c : Char} (hc : isBlank c = false) (cs : List Char) :
    dropBlank (c :: cs) = c :: cs :=
  List.dropWhile_cons_of_neg (by rw [hc]; exact Bool.false_ne_true)

theorem Text.dropBlank_dropBlank (cs : List Char) : dropBlank (dropBlank cs) = dropBlank cs :=
  List.dropWhile_idempotent isBlank cs

namespace Dice

/-! ## Numbers and pools -/

theorem Reader.eq_append_of_digits {max n : Nat} {cs rest : List Char}
    (h : digits max cs = .ok (n, rest)) : ∃ w, cs = w ++ rest ∧ IsNumber max w n := by
  unfold digits at h
  dsimp only at h
  split at h
  · cases h
  rename_i hne
  split at h
  · cases h
  rename_i hmax
  obtain ⟨rfl, rfl⟩ := Prod.mk.inj (Except.ok.inj h)
  refine ⟨cs.takeWhile Char.isDigit, List.takeWhile_append_dropWhile.symm, ?_,
    Nat.le_of_not_lt hmax⟩
  exact Decimal.digits?_of_isDigit (by simpa using hne) (List.all_eq_true.mp List.all_takeWhile)

theorem Reader.keepOf_eq_some_iff {c : Char} {kept : Nat → Keep} :
    keepOf c = some kept ↔
      (c = 'k' ∨ c = 'K') ∧ kept = .highest ∨ (c = 'l' ∨ c = 'L') ∧ kept = .lowest := by
  unfold keepOf
  split <;> simp_all [eq_comm]

theorem Reader.eq_append_of_keep {cs rest : List Char} {k : Option Keep}
    (h : keep cs = .ok (k, rest)) : ∃ w, cs = w ++ rest ∧ IsKeep w k := by
  cases cs with
  | nil =>
    obtain ⟨rfl, rfl⟩ := Prod.mk.inj (Except.ok.inj h)
    exact ⟨[], rfl, .missing⟩
  | cons c cs =>
    rw [keep_cons] at h
    split at h
    · rename_i kept hkept
      obtain ⟨⟨n, rest'⟩, hdigits, h⟩ := exists_of_bind_ok h
      obtain ⟨rfl, rfl⟩ := Prod.mk.inj (Except.ok.inj h)
      obtain ⟨w, rfl, hn⟩ := eq_append_of_digits hdigits
      refine ⟨c :: w, rfl, ?_⟩
      rcases keepOf_eq_some_iff.mp hkept with ⟨hc, rfl⟩ | ⟨hc, rfl⟩
      · exact .highest hc hn
      · exact .lowest hc hn
    · obtain ⟨rfl, rfl⟩ := Prod.mk.inj (Except.ok.inj h)
      exact ⟨[], rfl, .missing⟩

theorem Reader.isPool_of_pool {count : Nat} {u cs rest : List Char} {d : Char} {e : Expression}
    (hcount : IsCount u count) (hd : d = 'd' ∨ d = 'D') (h : pool count cs = .ok (e, rest)) :
    ∃ w p, u ++ d :: cs = w ++ rest ∧ IsPool w p ∧ e = .pool p := by
  obtain ⟨⟨sides, cs'⟩, hsides, h⟩ := exists_of_bind_ok h
  obtain ⟨⟨k, cs''⟩, hkeep, h⟩ := exists_of_bind_ok h
  obtain ⟨rfl, rfl⟩ := Prod.mk.inj (Except.ok.inj h)
  obtain ⟨v, rfl, hv⟩ := eq_append_of_digits hsides
  obtain ⟨w, rfl, hw⟩ := eq_append_of_keep hkeep
  exact ⟨u ++ d :: (v ++ w), ⟨count, sides, k⟩, by simp, .intro hcount hd hv hw, rfl⟩

theorem Reader.primary_of_numberOrPool {levels : Nat} {cs rest : List Char} {e : Expression}
    (h : numberOrPool cs = .ok (e, rest)) :
    ∃ w, cs = w ++ rest ∧ Derives .primary levels w e := by
  rw [numberOrPool_eq] at h
  obtain ⟨⟨n, cs'⟩, hdigits, hafter⟩ := exists_of_bind_ok h
  obtain ⟨u, rfl, hu⟩ := eq_append_of_digits hdigits
  dsimp only at hafter
  have hnumber : Derives .primary levels ([] ++ u) (.number n) :=
    .number (List.forall_mem_nil _) hu
  cases cs' with
  | nil =>
    obtain ⟨rfl, rfl⟩ := Prod.mk.inj (Except.ok.inj hafter)
    exact ⟨u, rfl, hnumber⟩
  | cons c cs' =>
    rw [afterNumber_cons] at hafter
    split at hafter
    · rename_i hd
      split at hafter
      · cases hafter
      · rename_i hmax
        have hcount : IsCount u n := .written ⟨hu.value, Nat.le_of_not_lt hmax⟩
        obtain ⟨w, p, htext, hp, rfl⟩ := isPool_of_pool hcount hd hafter
        exact ⟨w, htext, .pool (b := []) (List.forall_mem_nil _) hp⟩
    · obtain ⟨rfl, rfl⟩ := Prod.mk.inj (Except.ok.inj hafter)
      exact ⟨u, rfl, hnumber⟩

/-! ## Chains -/

/-- The reader takes a text of this category off the front, and perhaps blanks behind it. -/
def Reader.Follows (r : Reader Expression) (c : Category) (levels : Nat) : Prop :=
  ∀ cs e rest, r cs = .ok (e, rest) →
    ∃ w b, cs = w ++ (b ++ rest) ∧ Text.Blank b ∧ Derives c levels w e

/-- What has been taken stands before what is left without its blanks. -/
theorem Reader.Follows.dropBlank {r : Reader Expression} {c : Category} {levels : Nat}
    {cs rest : List Char} {e : Expression} (hr : r.Follows c levels) (h : r cs = .ok (e, rest)) :
    ∃ w b, cs = w ++ (b ++ Text.dropBlank rest) ∧ Text.Blank b ∧ Derives c levels w e := by
  obtain ⟨w, b, rfl, hb, hw⟩ := hr _ _ _ h
  obtain ⟨b', hb', hrest⟩ := Text.exists_blank_append rest
  refine ⟨w, b ++ b', ?_, List.forall_mem_append.mpr ⟨hb, hb'⟩, hw⟩
  rw [List.append_assoc b b', ← hrest]

section Chain

variable {operator : Char → Option Operator} {operand : Reader Expression}
  {outer inner : Category} {levels : Nat}

/-- **A chain derives.** By induction on the text that is left, with the expression in hand
derived from the text `l` before it, of which the blanks `b` have been dropped already. -/
theorem Reader.derives_of_chainFrom (hadvances : operand.Advances)
    (hoperand : operand.Follows inner levels)
    (hjoin : ∀ {c op l b r x y}, operator c = some op → Derives outer levels l x →
      Text.Blank b → Derives inner levels r y →
      Derives outer levels (l ++ (b ++ c :: r)) (.binary op x y))
    {left e : Expression} {l b cs rest : List Char} (hleft : Derives outer levels l left)
    (hb : Text.Blank b) (h : chainFrom operator operand left cs = .ok (e, rest)) :
    ∃ w b', b ++ cs = w ++ (b' ++ rest) ∧ Text.Blank b' ∧ Derives outer levels (l ++ w) e := by
  induction hn : cs.length using Nat.strongRecOn generalizing left l b cs with
  | ind n ih =>
    subst hn
    obtain ⟨b₁, hb₁, hcs⟩ := Text.exists_blank_append cs
    have hblank : Text.Blank (b ++ b₁) := List.forall_mem_append.mpr ⟨hb, hb₁⟩
    -- what there is when the chain ends here
    have hends : ∀ tail, cs = b₁ ++ tail → ∃ w b', b ++ cs = w ++ (b' ++ tail) ∧
        Text.Blank b' ∧ Derives outer levels (l ++ w) left := by
      intro tail htail
      exact ⟨[], b ++ b₁, by rw [htail]; simp, hblank, by rwa [List.append_nil]⟩
    rw [chainFrom_eq hadvances] at h
    split at h
    · rename_i hnil
      obtain ⟨rfl, rfl⟩ := Prod.mk.inj (Except.ok.inj h)
      exact hends [] (by rw [← hnil]; exact hcs)
    · rename_i c tail hcons
      rw [hcons] at hcs
      split at h
      · obtain ⟨rfl, rfl⟩ := Prod.mk.inj (Except.ok.inj h)
        exact hends _ hcs
      · rename_i op hop
        obtain ⟨⟨right, cs'⟩, hright, hnext⟩ := exists_of_bind_ok h
        obtain ⟨r, b₂, rfl, hb₂, hr⟩ := hoperand _ _ _ hright
        have hshorter : cs'.length < cs.length := by
          rw [hcs]
          simp
          omega
        obtain ⟨w, b', htext, hb', hw⟩ :=
          ih cs'.length hshorter (hjoin hop hleft hblank hr) hb₂ hnext rfl
        refine ⟨b ++ b₁ ++ c :: r ++ w, b', ?_, hb', by simpa using hw⟩
        rw [hcs, List.append_assoc _ w, ← htext]
        simp

theorem Reader.Follows.chain (hadvances : operand.Advances)
    (hoperand : operand.Follows inner levels)
    (hlift : ∀ {w e}, Derives inner levels w e → Derives outer levels w e)
    (hjoin : ∀ {c op l b r x y}, operator c = some op → Derives outer levels l x →
      Text.Blank b → Derives inner levels r y →
      Derives outer levels (l ++ (b ++ c :: r)) (.binary op x y)) :
    (Reader.chain operator operand).Follows outer levels := by
  intro cs e rest h
  rw [chain_eq] at h
  obtain ⟨⟨first, cs'⟩, hfirst, hnext⟩ := exists_of_bind_ok h
  obtain ⟨l, b, rfl, hb, hl⟩ := hoperand _ _ _ hfirst
  obtain ⟨w, b', htext, hb', hw⟩ :=
    derives_of_chainFrom hadvances hoperand hjoin (hlift hl) hb hnext
  exact ⟨l ++ w, b', by rw [htext, List.append_assoc], hb', hw⟩

end Chain

theorem Reader.productOperator_eq_some {c : Char} {op : Operator}
    (h : productOperator c = some op) : c = op.symbol ∧ (op = .times ∨ op = .divide) := by
  unfold productOperator at h
  split at h <;> cases h <;> decide

theorem Reader.sumOperator_eq_some {c : Char} {op : Operator} (h : sumOperator c = some op) :
    c = op.symbol ∧ (op = .plus ∨ op = .minus) := by
  unfold sumOperator at h
  split at h <;> cases h <;> decide

theorem Reader.Follows.term {operand : Reader Expression} {levels : Nat}
    (hadvances : operand.Advances) (hoperand : operand.Follows .operand levels) :
    (Reader.chain productOperator operand).Follows .term levels := by
  refine Follows.chain hadvances hoperand .ofOperand ?_
  intro c op l b r x y hc hl hb hr
  obtain ⟨rfl, hop⟩ := productOperator_eq_some hc
  exact .product hop hl hb hr

theorem Reader.Follows.expressionOf {operand : Reader Expression} {levels : Nat}
    (hadvances : operand.Advances) (hoperand : operand.Follows .operand levels) :
    (Reader.expressionOf operand).Follows .expression levels := by
  refine Follows.chain (chain_advances hadvances) (hoperand.term hadvances) .ofTerm ?_
  intro c op l b r x y hc hl hb hr
  obtain ⟨rfl, hop⟩ := sumOperator_eq_some hc
  exact .sum hop hl hb hr

/-! ## Operands and whole texts -/

theorem Reader.derives_of_apostrophe {levels : Nat} {cs rest : List Char} {e : Expression}
    (h : apostrophe cs = .ok (e, rest)) :
    ∃ w, '\'' :: cs = w ++ rest ∧ Derives .primary levels w e := by
  cases cs with
  | nil => cases h
  | cons c cs =>
    rw [apostrophe_cons] at h
    split at h
    · rename_i hc
      subst hc
      obtain ⟨rfl, rfl⟩ := Prod.mk.inj (Except.ok.inj h)
      exact ⟨['\'', '\''], rfl, .apostrophes (b := []) (List.forall_mem_nil _)⟩
    · cases h

section Operand

variable {inner : Option (Reader Expression)} {levels : Nat}
  (hinner : ∀ r, inner = some r → r.Advances ∧ ∃ n, levels = n + 1 ∧ r.Follows .operand n)
  {cs rest : List Char} {e : Expression}
include hinner

theorem Reader.derives_of_negation (h : negation inner cs = .ok (e, rest)) :
    ∃ w b, '-' :: cs = w ++ (b ++ rest) ∧ Text.Blank b ∧ Derives .operand levels w e := by
  cases hin : inner with
  | none =>
    rw [hin] at h
    cases h
  | some r =>
    obtain ⟨-, n, rfl, hr⟩ := hinner r hin
    rw [hin] at h
    obtain ⟨⟨x, tail⟩, hx, h⟩ := exists_of_bind_ok h
    obtain ⟨rfl, rfl⟩ := Prod.mk.inj (Except.ok.inj h)
    obtain ⟨w, b, rfl, hb, hw⟩ := hr _ _ _ hx
    exact ⟨'-' :: w, b, rfl, hb, .negation (b := []) (List.forall_mem_nil _) hw⟩

theorem Reader.derives_of_parenthesized (h : parenthesized inner cs = .ok (e, rest)) :
    ∃ w, '(' :: cs = w ++ rest ∧ Derives .primary levels w e := by
  cases hin : inner with
  | none =>
    rw [hin] at h
    cases h
  | some r =>
    obtain ⟨hadvances, n, rfl, hr⟩ := hinner r hin
    rw [hin] at h
    obtain ⟨⟨x, tail⟩, hx, hcloses⟩ := exists_of_bind_ok h
    obtain ⟨w, b, rfl, hb, hw⟩ := (hr.expressionOf hadvances).dropBlank hx
    dsimp only at hcloses
    cases hdrop : Text.dropBlank tail with
    | nil =>
      rw [parenthesized.closing, hdrop] at hcloses
      cases hcloses
    | cons c tail' =>
      rw [closing_cons x hdrop] at hcloses
      split at hcloses
      · rename_i hc
        subst hc
        obtain ⟨rfl, rfl⟩ := Prod.mk.inj (Except.ok.inj hcloses)
        have hparentheses : Derives .primary (n + 1) ([] ++ '(' :: (w ++ (b ++ [')']))) x :=
          .parentheses (List.forall_mem_nil _) hw hb
        exact ⟨_, by simp, hparentheses⟩
      · cases hcloses

/-- An operand derives by the rule that its first character asks for. -/
theorem Reader.Follows.operandOver : (Reader.operandOver inner).Follows .operand levels := by
  intro cs e rest h
  obtain ⟨b, hb, hcs⟩ := Text.exists_blank_append cs
  suffices hread : ∃ w b', Text.dropBlank cs = w ++ (b' ++ rest) ∧ Text.Blank b' ∧
      Derives .operand levels w e by
    obtain ⟨w, b', htext, hb', hw⟩ := hread
    exact ⟨b ++ w, b', by rw [hcs, htext, List.append_assoc], hb', hw.blank_append hb⟩
  have hnil : Text.Blank [] := List.forall_mem_nil _
  cases hdrop : Text.dropBlank cs with
  | nil =>
    rw [Reader.operandOver, hdrop] at h
    cases h
  | cons c tail =>
    rw [operandOver_cons inner hdrop] at h
    split at h
    · rename_i hc
      subst hc
      exact derives_of_negation hinner h
    split at h
    · rename_i hc
      subst hc
      obtain ⟨w, htext, hw⟩ := derives_of_parenthesized hinner h
      exact ⟨w, [], htext, hnil, .ofPrimary hw⟩
    split at h
    · rename_i hc
      subst hc
      obtain ⟨w, htext, hw⟩ := derives_of_apostrophe h
      exact ⟨w, [], htext, hnil, .ofPrimary hw⟩
    split at h
    · -- a pool without a count
      rename_i hd
      obtain ⟨w, p, htext, hp, rfl⟩ := isPool_of_pool .missing hd h
      exact ⟨w, [], htext, hnil, .ofPrimary (.pool (b := []) hnil hp)⟩
    · obtain ⟨w, htext, hw⟩ := primary_of_numberOrPool h
      exact ⟨w, [], htext, hnil, .ofPrimary hw⟩

end Operand

theorem Reader.follows_operand (levels : Nat) : (operand levels).Follows .operand levels := by
  induction levels with
  | zero =>
    refine Follows.operandOver ?_
    intro r hr
    cases hr
  | succ levels ih =>
    refine Follows.operandOver ?_
    intro r hr
    obtain rfl := Option.some.inj hr
    exact ⟨operand_advances levels, levels, rfl, ih⟩

/-- **What is read derives.** -/
theorem Reader.derives_of_whole {levels : Nat} {cs : List Char} {e : Expression}
    (h : whole levels cs = .ok e) :
    ∃ w b, cs = w ++ b ∧ Text.Blank b ∧ Derives .expression levels w e := by
  obtain ⟨⟨x, rest⟩, hread, hend⟩ := exists_of_bind_ok h
  obtain ⟨w, b, rfl, hb, hw⟩ :=
    ((follows_operand levels).expressionOf (operand_advances levels)).dropBlank hread
  dsimp only at hend
  split at hend
  · rename_i hrest
    obtain rfl := Except.ok.inj hend
    exact ⟨w, b, by rw [hrest, List.append_nil], hb, hw⟩
  · cases hend

end Dice

end RollMenu
