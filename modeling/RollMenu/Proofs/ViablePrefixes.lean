import Mathlib
import RollMenu.Proofs.LookAhead

/-!
# Where reading gets stuck

A text that does not read into an expression is turned down at the first character that no
expression goes on with, and if there is none, at the end of the text. This says two things.
What stands before that place can be completed: some text reads that begins with it. And the
character there settles the matter, so no text that begins in the same way reads, and each of
them is turned down at the same place.

The second half is how far readers look. For the first one, what a reader has taken off the
front before it gets stuck can be completed to a text of the reader's own category (`Viable`),
and each reader around it completes that further: by an operand behind an operator, or by a
closing parenthesis. The nesting leaves room for it because a reader that lacks the levels for
an operand does not get stuck but stops with another error.
-/

namespace RollMenu.Dice

/-! ## Completing a text -/

/-- The text can be completed to one of the category. -/
def Viable (c : Category) (levels : Nat) (w : List Char) : Prop :=
  ∃ v e, Derives c levels (w ++ v) e

theorem isNumber_one (max : Nat) (h : 1 ≤ max) : IsNumber max ['1'] 1 :=
  ⟨by decide, h⟩

theorem viable_of_eq {c : Category} {levels : Nat} {w text : List Char} {e : Expression}
    (v : List Char) (h : Derives c levels text e) (htext : text = w ++ v) : Viable c levels w :=
  ⟨v, e, htext ▸ h⟩

theorem Viable.blank_append {c : Category} {levels : Nat} {b w : List Char}
    (h : Viable c levels w) (hb : Text.Blank b) : Viable c levels (b ++ w) := by
  obtain ⟨v, e, he⟩ := h
  exact ⟨v, e, by rw [List.append_assoc]; exact he.blank_append hb⟩

/-- Anything at all can follow where nothing has been read: a number, say. -/
theorem viable_nil (levels : Nat) : Viable .primary levels [] :=
  ⟨['1'], _, .number (b := []) (List.forall_mem_nil _) (isNumber_one _ (by decide))⟩

theorem Viable.ofPrimary {levels : Nat} {w : List Char} (h : Viable .primary levels w) :
    Viable .operand levels w := by
  obtain ⟨v, e, he⟩ := h
  exact ⟨v, e, .ofPrimary he⟩

/-- Behind a minus. -/
theorem Viable.negation {levels : Nat} {w : List Char} (h : Viable .operand levels w) :
    Viable .operand (levels + 1) ('-' :: w) := by
  obtain ⟨v, e, he⟩ := h
  exact ⟨v, _, .negation (b := []) (List.forall_mem_nil _) he⟩

/-- Behind an opening parenthesis, a closing one completes the rest. -/
theorem Viable.parenthesis {levels : Nat} {w : List Char} (h : Viable .expression levels w) :
    Viable .primary (levels + 1) ('(' :: w) := by
  obtain ⟨v, e, he⟩ := h
  refine ⟨v ++ [')'], e, ?_⟩
  have hnil : Text.Blank [] := List.forall_mem_nil _
  have hparentheses := Derives.parentheses hnil he hnil
  simpa using hparentheses

/-- The reader gets stuck only behind what can be completed. -/
def Reader.Sticks (r : Reader Expression) (c : Category) (levels : Nat) : Prop :=
  ∀ cs rest, r cs = .error (.unexpected rest) → ∃ w, cs = w ++ rest ∧ Viable c levels w

namespace Reader

variable {cs rest : List Char}

/-! ## Numbers and pools -/

/-- A reader of digits gets stuck where it starts. -/
theorem eq_of_digits_stuck {max : Nat} (h : digits max cs = .error (.unexpected rest)) :
    cs = rest := by
  unfold digits at h
  dsimp only at h
  split at h
  · exact Stop.unexpected.inj (Except.error.inj h)
  · split at h
    · cases Except.error.inj h
    · cases h

theorem bind_stuck {α β : Type} {x : Except Stop α} {f : α → Except Stop β} {stop : Stop}
    (h : x >>= f = .error stop) : x = .error stop ∨ ∃ a, x = .ok a ∧ f a = .error stop := by
  cases x with
  | error e => exact Or.inl (congrArg Except.error (Except.error.inj h))
  | ok a => exact Or.inr ⟨a, rfl, h⟩

/-- What is kept of a pool is stuck behind the letter. -/
theorem exists_keepOf_of_keep_stuck (h : keep cs = .error (.unexpected rest)) :
    ∃ c kept, cs = c :: rest ∧ keepOf c = some kept := by
  cases cs with
  | nil => cases h
  | cons c cs =>
    rw [keep_cons] at h
    split at h
    · rename_i kept hkept
      rcases bind_stuck h with hdigits | ⟨_, _, hend⟩
      · obtain rfl := eq_of_digits_stuck hdigits
        exact ⟨c, kept, rfl, hkept⟩
      · cases hend
    · cases h

/-- A pool that gets stuck lacks its sides or the number of dice to keep. -/
theorem viable_of_pool_stuck {count levels : Nat} {u : List Char} {d : Char}
    (hcount : IsCount u count) (hd : d = 'd' ∨ d = 'D')
    (h : pool count cs = .error (.unexpected rest)) :
    ∃ w, u ++ d :: cs = w ++ rest ∧ Viable .primary levels w := by
  have hone := isNumber_one maxInPool (by decide)
  have hpool : ∀ {w p}, IsPool w p → Derives .primary levels w (.pool p) :=
    fun hp => .pool (b := []) (List.forall_mem_nil _) hp
  rcases bind_stuck h with hsides | ⟨⟨sides, cs'⟩, hsides, hnext⟩
  · obtain rfl := eq_of_digits_stuck hsides
    exact ⟨u ++ [d], by simp,
      viable_of_eq ['1'] (hpool (.intro hcount hd hone .missing)) (by simp)⟩
  obtain ⟨v, rfl, hv⟩ := eq_append_of_digits hsides
  rcases bind_stuck hnext with hkeep | ⟨_, _, hend⟩
  · obtain ⟨c, kept, rfl, hkept⟩ := exists_keepOf_of_keep_stuck hkeep
    have hw : IsKeep [c, '1'] (some (kept 1)) := by
      rcases keepOf_eq_some_iff.mp hkept with ⟨hc, rfl⟩ | ⟨hc, rfl⟩
      · exact .highest hc hone
      · exact .lowest hc hone
    exact ⟨u ++ d :: (v ++ [c]), by simp,
      viable_of_eq ['1'] (hpool (.intro hcount hd hv hw)) (by simp)⟩
  · cases hend

theorem viable_of_numberOrPool_stuck {levels : Nat}
    (h : numberOrPool cs = .error (.unexpected rest)) :
    ∃ w, cs = w ++ rest ∧ Viable .primary levels w := by
  rw [numberOrPool_eq] at h
  rcases bind_stuck h with hdigits | ⟨⟨n, cs'⟩, hdigits, hafter⟩
  · exact ⟨[], eq_of_digits_stuck hdigits, viable_nil levels⟩
  obtain ⟨u, rfl, hu⟩ := eq_append_of_digits hdigits
  cases cs' with
  | nil => cases hafter
  | cons c cs' =>
    dsimp only at hafter
    rw [afterNumber_cons] at hafter
    split at hafter
    · rename_i hd
      split at hafter
      · cases Except.error.inj hafter
      · rename_i hmax
        exact viable_of_pool_stuck (.written ⟨hu.value, Nat.le_of_not_lt hmax⟩) hd hafter
    · cases hafter

/-! ## Chains -/

section Chain

variable {operator : Char → Option Operator} {operand : Reader Expression}
  {outer inner : Category} {levels : Nat}

/-- **A chain gets stuck in one of its operands**, and what stands before that is joined to it.
By induction on the text that is left, as for what a chain derives. -/
theorem viable_of_chainFrom_stuck (hadvances : operand.Advances)
    (hfollows : operand.Follows inner levels) (hsticks : operand.Sticks inner levels)
    (hjoin : ∀ {c op l b r x y}, operator c = some op → Derives outer levels l x →
      Text.Blank b → Derives inner levels r y →
      Derives outer levels (l ++ (b ++ c :: r)) (.binary op x y))
    {left : Expression} {l b cs rest : List Char} (hleft : Derives outer levels l left)
    (hb : Text.Blank b) (h : chainFrom operator operand left cs = .error (.unexpected rest)) :
    ∃ w, b ++ cs = w ++ rest ∧ Viable outer levels (l ++ w) := by
  induction hn : cs.length using Nat.strongRecOn generalizing left l b cs with
  | ind n ih =>
    subst hn
    obtain ⟨b₁, hb₁, hcs⟩ := Text.exists_blank_append cs
    have hblank : Text.Blank (b ++ b₁) := List.forall_mem_append.mpr ⟨hb, hb₁⟩
    rw [chainFrom_eq hadvances] at h
    split at h
    · cases h
    · rename_i c tail hcons
      rw [hcons] at hcs
      split at h
      · cases h
      · rename_i op hop
        rcases bind_stuck h with hright | ⟨⟨right, cs'⟩, hright, hnext⟩
        · obtain ⟨w, rfl, v, e, he⟩ := hsticks _ _ hright
          exact ⟨b ++ b₁ ++ c :: w, by rw [hcs]; simp,
            viable_of_eq v (hjoin hop hleft hblank he) (by simp)⟩
        · obtain ⟨r, b₂, rfl, hb₂, hr⟩ := hfollows _ _ _ hright
          have hshorter : cs'.length < cs.length := by
            rw [hcs]
            simp
            omega
          obtain ⟨w, htext, hw⟩ :=
            ih cs'.length hshorter (hjoin hop hleft hblank hr) hb₂ hnext rfl
          refine ⟨b ++ b₁ ++ c :: r ++ w, ?_, by simpa using hw⟩
          rw [hcs, List.append_assoc _ w, ← htext]
          simp

theorem Sticks.chain (hadvances : operand.Advances) (hfollows : operand.Follows inner levels)
    (hsticks : operand.Sticks inner levels)
    (hlift : ∀ {w e}, Derives inner levels w e → Derives outer levels w e)
    (hjoin : ∀ {c op l b r x y}, operator c = some op → Derives outer levels l x →
      Text.Blank b → Derives inner levels r y →
      Derives outer levels (l ++ (b ++ c :: r)) (.binary op x y)) :
    (Reader.chain operator operand).Sticks outer levels := by
  intro cs rest h
  rw [chain_eq] at h
  rcases bind_stuck h with hfirst | ⟨⟨first, cs'⟩, hfirst, hnext⟩
  · obtain ⟨w, htext, v, e, he⟩ := hsticks _ _ hfirst
    exact ⟨w, htext, v, e, hlift he⟩
  · obtain ⟨l, b, rfl, hb, hl⟩ := hfollows _ _ _ hfirst
    obtain ⟨w, htext, hw⟩ :=
      viable_of_chainFrom_stuck hadvances hfollows hsticks hjoin (hlift hl) hb hnext
    exact ⟨l ++ w, by rw [htext, List.append_assoc], hw⟩

end Chain

/-! ## Operands -/

theorem Sticks.expressionOf {operand : Reader Expression} {levels : Nat}
    (hadvances : operand.Advances) (hfollows : operand.Follows .operand levels)
    (hsticks : operand.Sticks .operand levels) :
    (Reader.expressionOf operand).Sticks .expression levels := by
  have hterm : (Reader.chain productOperator operand).Sticks .term levels := by
    refine Sticks.chain hadvances hfollows hsticks .ofOperand ?_
    intro c op l b r x y hc hl hb hr
    obtain ⟨rfl, hop⟩ := productOperator_eq_some hc
    exact .product hop hl hb hr
  refine Sticks.chain (chain_advances hadvances) (hfollows.term hadvances) hterm .ofTerm ?_
  intro c op l b r x y hc hl hb hr
  obtain ⟨rfl, hop⟩ := sumOperator_eq_some hc
  exact .sum hop hl hb hr

theorem viable_of_apostrophe_stuck {levels : Nat} (h : apostrophe cs = .error (.unexpected rest)) :
    ∃ w, '\'' :: cs = w ++ rest ∧ Viable .primary levels w := by
  have hviable : Viable .primary levels ['\''] :=
    viable_of_eq ['\''] (.apostrophes (b := []) (List.forall_mem_nil _)) rfl
  unfold apostrophe at h
  split at h
  · cases h
  · obtain rfl := Stop.unexpected.inj (Except.error.inj h)
    exact ⟨['\''], rfl, hviable⟩

section Operand

variable {inner : Option (Reader Expression)} {levels : Nat}
  (hinner : ∀ r, inner = some r → r.Advances ∧
    ∃ n, levels = n + 1 ∧ r.Follows .operand n ∧ r.Sticks .operand n)
include hinner

theorem viable_of_negation_stuck (h : negation inner cs = .error (.unexpected rest)) :
    ∃ w, '-' :: cs = w ++ rest ∧ Viable .operand levels w := by
  cases hin : inner with
  | none =>
    rw [hin] at h
    cases h
  | some r =>
    obtain ⟨-, n, rfl, -, hsticks⟩ := hinner r hin
    rw [hin] at h
    rcases bind_stuck h with hstuck | ⟨_, _, hend⟩
    · obtain ⟨w, rfl, hw⟩ := hsticks _ _ hstuck
      exact ⟨'-' :: w, rfl, hw.negation⟩
    · cases hend

theorem viable_of_parenthesized_stuck (h : parenthesized inner cs = .error (.unexpected rest)) :
    ∃ w, '(' :: cs = w ++ rest ∧ Viable .primary levels w := by
  cases hin : inner with
  | none =>
    rw [hin] at h
    cases h
  | some r =>
    obtain ⟨hadvances, n, rfl, hfollows, hsticks⟩ := hinner r hin
    rw [hin] at h
    rcases bind_stuck h with hstuck | ⟨⟨x, tail⟩, hx, hcloses⟩
    · obtain ⟨w, rfl, hw⟩ := hsticks.expressionOf hadvances hfollows _ _ hstuck
      exact ⟨'(' :: w, rfl, hw.parenthesis⟩
    · -- the expression is there, and what lacks is the parenthesis behind it
      obtain ⟨w, b, rfl, hb, hw⟩ := (hfollows.expressionOf hadvances).dropBlank hx
      have hrest : Text.dropBlank tail = rest := by
        unfold parenthesized.closing at hcloses
        split at hcloses
        · cases hcloses
        · exact Stop.unexpected.inj (Except.error.inj hcloses)
      refine ⟨'(' :: (w ++ b), ?_, viable_of_eq [')']
        (.parentheses (b := []) (List.forall_mem_nil _) hw hb) (by simp)⟩
      rw [hrest]
      simp

/-- An operand gets stuck in the part of the grammar that its first character asks for, and with
nothing but blanks before the end of the text. -/
theorem Sticks.operandOver : (Reader.operandOver inner).Sticks .operand levels := by
  intro cs rest h
  obtain ⟨b, hb, hcs⟩ := Text.exists_blank_append cs
  suffices hread : ∃ w, Text.dropBlank cs = w ++ rest ∧ Viable .operand levels w by
    obtain ⟨w, htext, hw⟩ := hread
    exact ⟨b ++ w, by rw [hcs, htext, List.append_assoc], hw.blank_append hb⟩
  cases hdrop : Text.dropBlank cs with
  | nil =>
    rw [Reader.operandOver, hdrop] at h
    obtain rfl : [] = rest := Stop.unexpected.inj (Except.error.inj h)
    exact ⟨[], rfl, (viable_nil levels).ofPrimary⟩
  | cons c tail =>
    rw [operandOver_cons inner hdrop] at h
    have hprimary : (∃ w, c :: tail = w ++ rest ∧ Viable .primary levels w) →
        ∃ w, c :: tail = w ++ rest ∧ Viable .operand levels w := by
      rintro ⟨w, htext, hw⟩
      exact ⟨w, htext, hw.ofPrimary⟩
    split at h
    · rename_i hc
      subst hc
      exact viable_of_negation_stuck hinner h
    split at h
    · rename_i hc
      subst hc
      exact hprimary (viable_of_parenthesized_stuck hinner h)
    split at h
    · rename_i hc
      subst hc
      exact hprimary (viable_of_apostrophe_stuck h)
    split at h
    · -- a pool without a count
      rename_i hd
      exact hprimary (viable_of_pool_stuck .missing hd h)
    · exact hprimary (viable_of_numberOrPool_stuck h)

end Operand

theorem sticks_operand (levels : Nat) : (operand levels).Sticks .operand levels := by
  induction levels with
  | zero =>
    refine Sticks.operandOver ?_
    intro r hr
    cases hr
  | succ levels ih =>
    refine Sticks.operandOver ?_
    intro r hr
    obtain rfl := Option.some.inj hr
    exact ⟨operand_advances levels, levels, rfl, follows_operand levels, ih⟩

/-! ## Whole texts -/

/-- **What stands before the place where reading gets stuck can be completed.** -/
theorem exists_whole_of_stuck {levels : Nat} (h : whole levels cs = .error (.unexpected rest)) :
    ∃ w, cs = w ++ rest ∧ ∃ v e, whole levels (w ++ v) = .ok e := by
  have hadvances := operand_advances levels
  have hfollows := follows_operand levels
  rcases bind_stuck (whole_eq_error_iff.mp h) with hstuck | ⟨⟨e, tail⟩, hread, hend⟩
  · obtain ⟨w, htext, v, e, he⟩ :=
      (sticks_operand levels).expressionOf hadvances hfollows _ _ hstuck
    refine ⟨w, htext, v, e, ?_⟩
    rw [← List.append_nil (w ++ v)]
    exact whole_of_derives he (List.forall_mem_nil _)
  · -- an expression has been read, and the text should have ended there
    obtain ⟨w, b, rfl, hb, hw⟩ := (hfollows.expressionOf hadvances).dropBlank hread
    have hrest : Text.dropBlank tail = rest := by
      unfold toEnd at hend
      split at hend
      · cases hend
      · exact Stop.unexpected.inj (Except.error.inj hend)
    refine ⟨w ++ b, ?_, [], e, ?_⟩
    · rw [hrest, List.append_assoc]
    · rw [List.append_nil]
      exact whole_of_derives hw hb

end Reader

/-! ## Errors of a text -/

theorem parse_eq_error_iff {source : String} {e : RollError} :
    parse source = .error e ↔
      ∃ stop, Reader.whole maxNesting source.toList = .error stop ∧ stop.error source = e := by
  unfold parse
  cases Reader.whole maxNesting source.toList <;> simp [Except.mapError]

/-- Reading gets stuck at this character. -/
theorem stuck_of_unexpectedToken {source text : String} {position : Nat} {found : Char}
    (h : parse source = .error (.unexpectedToken text position found)) :
    text = source ∧ ∃ w rest, source.toList = w ++ found :: rest ∧ w.length = position ∧
      Reader.whole maxNesting source.toList = .error (.unexpected (found :: rest)) := by
  obtain ⟨stop, hstop, he⟩ := parse_eq_error_iff.mp h
  unfold Stop.error at he
  split at he
  · cases he
  · rename_i c rest
    obtain ⟨rfl, rfl, rfl⟩ := RollError.unexpectedToken.inj he
    obtain ⟨w, hsource, -⟩ := Reader.exists_whole_of_stuck hstop
    refine ⟨rfl, w, rest, hsource, ?_, hstop⟩
    rw [← String.length_toList, hsource, List.length_append, List.length_cons, Nat.add_sub_cancel]
  · cases he
  · cases he

/-- The text that can be completed up to where it gets stuck reads with the completion. -/
theorem exists_parse_of_stuck {source : String} {w rest : List Char}
    (hsource : source.toList = w ++ rest)
    (h : Reader.whole maxNesting source.toList = .error (.unexpected rest)) :
    ∃ v e, parse (String.ofList w ++ v) = .ok e := by
  obtain ⟨w', hsource', v, e, he⟩ := Reader.exists_whole_of_stuck h
  obtain rfl : w = w' := List.append_cancel_right (hsource.symm.trans hsource')
  refine ⟨String.ofList v, e, parse_eq_ok_iff_whole.mpr ?_⟩
  rwa [String.toList_append, String.toList_ofList, String.toList_ofList]

/--
**A text is turned down at the first character that no expression goes on with.** What stands
before it can be completed to a text that reads, and every text that begins with that and the
same character is turned down at the same place. A text that ends too early can be completed.
-/
theorem parse_stops_at_first_misfit (source : String) :
    (∀ text position found, parse source = .error (.unexpectedToken text position found) →
      position < source.length ∧ source.toList[position]? = some found ∧
      (∃ v e, parse (String.ofList (source.toList.take position) ++ v) = .ok e) ∧
      ∀ other : String, source.toList.take (position + 1) <+: other.toList →
        parse other = .error (.unexpectedToken other position found)) ∧
    ∀ text, parse source = .error (.unexpectedEnd text) → ∃ v e, parse (source ++ v) = .ok e := by
  constructor
  · intro text position found h
    obtain ⟨rfl, w, rest, hsource, rfl, hstuck⟩ := stuck_of_unexpectedToken h
    have htake : text.toList.take w.length = w := by rw [hsource, List.take_left]
    refine ⟨?_, ?_, ?_, ?_⟩
    · rw [← String.length_toList, hsource, List.length_append, List.length_cons]
      omega
    · rw [hsource, List.getElem?_append_right (Nat.le_refl _), Nat.sub_self]
      rfl
    · rw [htake]
      exact exists_parse_of_stuck hsource hstuck
    · rintro other ⟨tail, hother⟩
      have hnext : text.toList.take (w.length + 1) = w ++ [found] := by
        rw [hsource, List.append_cons, List.take_left' (by simp)]
      rw [hnext, ← List.append_cons] at hother
      obtain ⟨read, hread, hcongr⟩ := Reader.whole_stuck_congr (List.cons_ne_nil _ _) hstuck
      obtain rfl : w = read := List.append_cancel_right (hsource.symm.trans hread)
      have hother' := hcongr (found :: tail) rfl
      rw [hother] at hother'
      refine parse_eq_error_iff.mpr ⟨_, hother', ?_⟩
      rw [Stop.error, ← String.length_toList, ← hother, List.length_append, List.length_cons,
        Nat.add_sub_cancel]
  · intro text h
    obtain ⟨stop, hstop, he⟩ := parse_eq_error_iff.mp h
    unfold Stop.error at he
    split at he
    · obtain ⟨v, e, hv⟩ := exists_parse_of_stuck (List.append_nil source.toList).symm hstop
      exact ⟨v, e, by rwa [String.ofList_toList] at hv⟩
    · cases he
    · cases he
    · cases he

/-- A pool in parentheses that lacks the number of dice to keep, and a sum that lacks a term. -/
theorem parse_stops_at_first_misfit_in_parentheses :
    parse "2*(3d6k x" = .error (.unexpectedToken "2*(3d6k x" 7 ' ') ∧
      (∃ v e, parse ("2*(3d6k" ++ v) = .ok e) ∧
      (∀ other : String, "2*(3d6k ".toList <+: other.toList →
        parse other = .error (.unexpectedToken other 7 ' ')) ∧
      parse "-(1 +" = .error (.unexpectedEnd "-(1 +") ∧ ∃ v e, parse ("-(1 +" ++ v) = .ok e := by
  have htoken : parse "2*(3d6k x" = .error (.unexpectedToken "2*(3d6k x" 7 ' ') := by cbv
  have hend : parse "-(1 +" = .error (.unexpectedEnd "-(1 +") := by cbv
  obtain ⟨-, -, hcompleted, hsettled⟩ :=
    (parse_stops_at_first_misfit "2*(3d6k x").1 _ _ _ htoken
  exact ⟨htoken, hcompleted, hsettled, hend, (parse_stops_at_first_misfit "-(1 +").2 _ hend⟩

end RollMenu.Dice
