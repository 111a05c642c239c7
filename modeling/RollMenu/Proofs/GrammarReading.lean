import RollMenu.Proofs.DerivedReadings
import RollMenu.Proofs.GapReading

/-!
# Reading follows the grammar

The readers never look back and never try a second way, while the grammar only says how a
text may be put together. The main statement is that they agree: a text reads into an
expression exactly if it derives that expression.

One direction is known, so here what derives is read. After a number or a pool comes a
character that can not belong to it, which makes the readers stop at the right place. The
chains are where an induction over derivations needs more: the left part of a sum is
followed by an operator, so the chain that reads it goes on. What is shown of a derived
text is therefore that the readers arrive behind it with its expression in hand (`Reads`),
and not that they stop there.
-/

namespace RollMenu.Dice

/-! ## Where a text ends -/

/-- The text does not go on with a character that could belong to a number or a pool. -/
def Ends (rest : List Char) : Prop :=
  ∀ c, [c] <+: rest → c.isDigit = false ∧ c ∉ poolLetters

/-- The text does not go on with an operator that joins operands. -/
def EndsTerm (rest : List Char) : Prop :=
  ∀ c, [c] <+: Text.dropBlank rest → Reader.productOperator c = none

theorem Ends.cons {c : Char} (hdigit : c.isDigit = false) (hletter : c ∉ poolLetters)
    (cs : List Char) : Ends (c :: cs) := by
  rintro c' ⟨t, ht⟩
  obtain ⟨rfl, -⟩ := List.cons.inj ht
  exact ⟨hdigit, hletter⟩

theorem not_isDigit_of_isBlank {c : Char} (h : Text.isBlank c = true) : c.isDigit = false := by
  cases hdigit : c.isDigit with
  | false => rfl
  | true =>
    rw [Text.isBlank_of_isDigit hdigit] at h
    cases h

theorem not_mem_poolLetters_of_isBlank {c : Char} (h : Text.isBlank c = true) :
    c ∉ poolLetters := by
  intro hmem
  simp only [poolLetters, List.mem_cons, List.not_mem_nil, or_false] at hmem
  obtain rfl | rfl | rfl | rfl | rfl | rfl := hmem <;> cases h

/-- Blanks end a number or a pool. -/
theorem Ends.blank_append {b cs : List Char} (hb : Text.Blank b) (hcs : Ends cs) :
    Ends (b ++ cs) := by
  cases b with
  | nil => exact hcs
  | cons c b =>
    have hc := hb c List.mem_cons_self
    exact .cons (not_isDigit_of_isBlank hc) (not_mem_poolLetters_of_isBlank hc) _

theorem EndsTerm.blank_append {b cs : List Char} (hb : Text.Blank b) (hcs : EndsTerm cs) :
    EndsTerm (b ++ cs) := by
  rwa [EndsTerm, Text.dropBlank_append hb]

theorem EndsTerm.cons {c : Char} (hblank : Text.isBlank c = false)
    (hc : Reader.productOperator c = none) (cs : List Char) : EndsTerm (c :: cs) := by
  rw [EndsTerm, Text.dropBlank_cons hblank]
  rintro c' ⟨t, ht⟩
  obtain ⟨rfl, -⟩ := List.cons.inj ht
  exact hc

namespace Reader

variable {rest : List Char}

theorem digits_of_isNumber {max n : Nat} {w : List Char} (hw : IsNumber max w n)
    (hrest : ∀ c, [c] <+: rest → c.isDigit = false) :
    digits max (w ++ rest) = .ok (n, rest) := by
  rw [digits_append hw.value hrest, if_neg (Nat.not_lt.mpr hw.le_max)]

theorem keep_of_isKeep {w : List Char} {k : Option Keep} (hw : IsKeep w k) (hrest : Ends rest) :
    keep (w ++ rest) = .ok (k, rest) := by
  have hdigit := fun c hc => (hrest c hc).1
  cases hw with
  | missing =>
    cases rest with
    | nil => rfl
    | cons c cs =>
      have hnone : keepOf c = none := by
        refine Option.eq_none_iff_forall_ne_some.mpr ?_
        intro kept hkept
        exact (hrest c ⟨cs, rfl⟩).2 (Gap.keepOf_eq_some hkept).1
      rw [List.nil_append, keep_cons, hnone]
  | highest hc hn =>
    rw [List.cons_append, keep_cons, keepOf_eq_some_iff.mpr (Or.inl ⟨hc, rfl⟩)]
    dsimp only
    rw [digits_of_isNumber hn hdigit]
    rfl
  | lowest hc hn =>
    rw [List.cons_append, keep_cons, keepOf_eq_some_iff.mpr (Or.inr ⟨hc, rfl⟩)]
    dsimp only
    rw [digits_of_isNumber hn hdigit]
    rfl

theorem pool_of_isNumber {count sides : Nat} {kept : Option Keep} {v w : List Char}
    (hv : IsNumber maxInPool v sides) (hw : IsKeep w kept) (hrest : Ends rest) :
    pool count (v ++ (w ++ rest)) = .ok (.pool ⟨count, sides, kept⟩, rest) := by
  have hdigit : ∀ c, [c] <+: w ++ rest → c.isDigit = false := by
    intro c hc
    cases hw with
    | missing => exact (hrest c hc).1
    | highest hletter _ | lowest hletter _ =>
      obtain ⟨t, ht⟩ := hc
      obtain ⟨rfl, -⟩ := List.cons.inj ht
      rcases hletter with rfl | rfl <;> rfl
  rw [pool, digits_of_isNumber hv hdigit]
  simp only [bind, Except.bind, keep_of_isKeep hw hrest]
  rfl

theorem numberOrPool_of_isNumber {w : List Char} {n : Nat} (hw : IsNumber maxNumber w n)
    (hrest : Ends rest) : numberOrPool (w ++ rest) = .ok (.number n, rest) := by
  rw [numberOrPool_eq, digits_of_isNumber hw fun c hc => (hrest c hc).1]
  cases rest with
  | nil => rfl
  | cons c cs =>
    have hletter : ¬ (c = 'd' ∨ c = 'D') := fun hd =>
      (hrest c ⟨cs, rfl⟩).2 (Gap.mem_poolLetters hd)
    exact (afterNumber_cons n c cs).trans (if_neg hletter)

theorem numberOrPool_of_count {count sides : Nat} {kept : Option Keep} {u v w : List Char}
    {d : Char} (hu : IsNumber maxInPool u count) (hd : d = 'd' ∨ d = 'D')
    (hv : IsNumber maxInPool v sides) (hw : IsKeep w kept) (hrest : Ends rest) :
    numberOrPool (u ++ d :: (v ++ (w ++ rest))) = .ok (.pool ⟨count, sides, kept⟩, rest) := by
  have hdigit : ∀ c, [c] <+: d :: (v ++ (w ++ rest)) → c.isDigit = false := by
    rintro c ⟨t, ht⟩
    obtain ⟨rfl, -⟩ := List.cons.inj ht
    rcases hd with rfl | rfl <;> rfl
  have hmax : IsNumber maxNumber u count := ⟨hu.value, hu.le_max.trans (by decide)⟩
  rw [numberOrPool_eq, digits_of_isNumber hmax hdigit]
  refine (afterNumber_cons count d _).trans ?_
  rw [if_pos hd, if_neg (Nat.not_lt.mpr hu.le_max), pool_of_isNumber hv hw hrest]

/-! ### Operands -/

variable {inner : Option (Reader Expression)} {b w : List Char}

/-- Numbers start with a digit, and so are told from everything else. -/
theorem operandOver_of_isNumber {max n : Nat} (hb : Text.Blank b) (hw : IsNumber max w n)
    (cs : List Char) : operandOver inner (b ++ (w ++ cs)) = numberOrPool (w ++ cs) := by
  obtain ⟨hne, hdigit, -⟩ := Decimal.isDigit_of_digits? hw.value
  obtain ⟨c, w, rfl⟩ := List.exists_cons_of_ne_nil hne
  have hc : c.isDigit = true := hdigit c List.mem_cons_self
  have hdrop : Text.dropBlank (b ++ (c :: w ++ cs)) = c :: (w ++ cs) := by
    rw [Text.dropBlank_append hb, List.cons_append,
      Text.dropBlank_cons (Text.isBlank_of_isDigit hc)]
  have hother : ∀ {c'}, c'.isDigit = false → c ≠ c' := Gap.ne_of_isDigit hc
  rw [operandOver_cons inner hdrop, if_neg (hother rfl), if_neg (hother rfl),
    if_neg (hother rfl), if_neg (not_or.mpr ⟨hother rfl, hother rfl⟩), List.cons_append]

theorem operandOver_of_number {n : Nat} (hb : Text.Blank b) (hw : IsNumber maxNumber w n)
    (hrest : Ends rest) : operandOver inner (b ++ w ++ rest) = .ok (.number n, rest) := by
  rw [List.append_assoc, operandOver_of_isNumber hb hw, numberOrPool_of_isNumber hw hrest]

theorem operandOver_of_isPool {p : Pool} (hb : Text.Blank b) (hw : IsPool w p)
    (hrest : Ends rest) : operandOver inner (b ++ w ++ rest) = .ok (.pool p, rest) := by
  obtain @⟨u, v, w, d, count, sides, kept, hcount, hd, hsides, hkeep⟩ := hw
  have htext : b ++ (u ++ d :: (v ++ w)) ++ rest = b ++ (u ++ d :: (v ++ (w ++ rest))) := by simp
  rw [htext]
  cases hcount with
  | missing =>
    have hblank : Text.isBlank d = false := by rcases hd with rfl | rfl <;> rfl
    have hdrop : Text.dropBlank (b ++ ([] ++ d :: (v ++ (w ++ rest)))) =
        d :: (v ++ (w ++ rest)) := by
      rw [Text.dropBlank_append hb, List.nil_append, Text.dropBlank_cons hblank]
    have hother : d ≠ '-' ∧ d ≠ '(' ∧ d ≠ '\'' := by rcases hd with rfl | rfl <;> decide
    rw [operandOver_cons inner hdrop, if_neg hother.1, if_neg hother.2.1, if_neg hother.2.2,
      if_pos hd, pool_of_isNumber hsides hkeep hrest]
  | written hu =>
    rw [operandOver_of_isNumber hb hu, numberOrPool_of_count hu hd hsides hkeep hrest]

theorem operandOver_of_apostrophes (hb : Text.Blank b) :
    operandOver inner (b ++ ['\'', '\''] ++ rest) = .ok (.empty, rest) := by
  have hdrop : Text.dropBlank (b ++ ['\'', '\''] ++ rest) = '\'' :: '\'' :: rest := by
    rw [List.append_assoc, Text.dropBlank_append hb]
    rfl
  rw [operandOver_cons inner hdrop]
  rfl

theorem operand_succ_of_minus {levels : Nat} (hb : Text.Blank b) (cs : List Char) :
    operand (levels + 1) (b ++ '-' :: cs) =
      operand levels cs >>= fun e => .ok (.negate e.1, e.2) := by
  have hdrop : Text.dropBlank (b ++ '-' :: cs) = '-' :: cs := by
    rw [Text.dropBlank_append hb, Text.dropBlank_cons rfl]
  rw [operand, operandOver_cons _ hdrop]
  rfl

theorem operand_succ_of_parenthesis {levels : Nat} (hb : Text.Blank b) (cs : List Char) :
    operand (levels + 1) (b ++ '(' :: cs) =
      expressionOf (operand levels) cs >>= fun e => parenthesized.closing e.1 e.2 := by
  have hdrop : Text.dropBlank (b ++ '(' :: cs) = '(' :: cs := by
    rw [Text.dropBlank_append hb, Text.dropBlank_cons rfl]
  rw [operand, operandOver_cons _ hdrop]
  rfl

/-! ### Chains -/

section Chain

variable {operator : Char → Option Operator} {operand : Reader Expression}

/-- The blanks in front of an operator are dropped anyway. -/
theorem chainFrom_dropBlank (hoperand : operand.Advances) (left : Expression) (cs : List Char) :
    chainFrom operator operand left (Text.dropBlank cs) = chainFrom operator operand left cs := by
  rw [chainFrom_eq hoperand, chainFrom_eq hoperand, Text.dropBlank_dropBlank]

/-- A chain ends where no operator of its own follows. -/
theorem chainFrom_of_not_operator (hoperand : operand.Advances) (left : Expression)
    {cs : List Char} (h : ∀ c, [c] <+: Text.dropBlank cs → operator c = none) :
    chainFrom operator operand left cs = .ok (left, Text.dropBlank cs) := by
  rw [chainFrom_eq hoperand]
  split
  · rename_i hnil
    rw [hnil]
  · rename_i c tail hcons
    rw [hcons] at h ⊢
    rw [h c ⟨tail, rfl⟩]

/-- A chain goes on behind an operator. -/
theorem chainFrom_of_operator (hoperand : operand.Advances) (left : Expression) {c : Char}
    {op : Operator} (hc : Text.isBlank c = false) (hop : operator c = some op)
    (hb : Text.Blank b) (cs : List Char) :
    chainFrom operator operand left (b ++ c :: cs) =
      operand cs >>= fun right => chainFrom operator operand (.binary op left right.1) right.2 := by
  rw [chainFrom_eq hoperand, Text.dropBlank_append hb, Text.dropBlank_cons hc]
  dsimp only
  rw [hop]

end Chain

theorem isBlank_symbol (op : Operator) : Text.isBlank op.symbol = false := by
  cases op <;> rfl

theorem ends_symbol (op : Operator) (cs : List Char) : Ends (op.symbol :: cs) := by
  refine .cons ?_ ?_ cs <;> cases op <;> decide

theorem sumOperator_symbol {op : Operator} (h : op = .plus ∨ op = .minus) :
    sumOperator op.symbol = some op ∧ productOperator op.symbol = none := by
  rcases h with rfl | rfl <;> exact ⟨rfl, rfl⟩

theorem productOperator_symbol {op : Operator} (h : op = .times ∨ op = .divide) :
    productOperator op.symbol = some op := by
  rcases h with rfl | rfl <;> rfl

/-- The readers arrive behind a derived text with its expression in hand. The chains have not
looked yet at what follows. -/
def Reads : Category → Nat → List Char → Expression → Prop
  | .expression, levels, w, e => ∀ rest, Ends rest → EndsTerm rest →
      expressionOf (operand levels) (w ++ rest) =
        chainFrom sumOperator (chain productOperator (operand levels)) e rest
  | .term, levels, w, e => ∀ rest, Ends rest →
      chain productOperator (operand levels) (w ++ rest) =
        chainFrom productOperator (operand levels) e rest
  | .operand, levels, w, e | .primary, levels, w, e => ∀ rest, Ends rest →
      operand levels (w ++ rest) = .ok (e, rest)

/-- A term of a sum is read to its end, and so are the blanks behind it. -/
theorem Reads.term_to_end {levels : Nat} {w : List Char} {e : Expression}
    (h : Reads .term levels w e) (hends : Ends rest) (hterm : EndsTerm rest) :
    chain productOperator (operand levels) (w ++ rest) = .ok (e, Text.dropBlank rest) := by
  rw [h rest hends, chainFrom_of_not_operator (operand_advances levels) e hterm]

/-- **What derives is read.** By induction on the derivation. -/
theorem reads_of_derives {c : Category} {levels : Nat} {w : List Char} {e : Expression}
    (h : Derives c levels w e) : Reads c levels w e := by
  have hoperand := operand_advances
  have hterm : ∀ levels, (chain productOperator (operand levels)).Advances :=
    fun levels => chain_advances (hoperand levels)
  induction h with
  | @ofTerm levels w e _ ih =>
    intro rest hends hendsTerm
    rw [expressionOf, chain_eq, Reads.term_to_end ih hends hendsTerm]
    exact chainFrom_dropBlank (hterm levels) e rest
  | @sum levels l b r op x y hop _ hb _ ihl ihr =>
    intro rest hends hendsTerm
    obtain ⟨hsum, hproduct⟩ := sumOperator_symbol hop
    have hblank := isBlank_symbol op
    rw [List.append_assoc, List.append_assoc, List.cons_append,
      ihl _ ((ends_symbol op _).blank_append hb)
        ((EndsTerm.cons hblank hproduct _).blank_append hb),
      chainFrom_of_operator (hterm levels) x hblank hsum hb, ihr.term_to_end hends hendsTerm]
    exact chainFrom_dropBlank (hterm levels) _ rest
  | ofOperand _ ih =>
    intro rest hends
    rw [chain_eq, ih rest hends]
    rfl
  | @product levels l b r op x y hop _ hb _ ihl ihr =>
    intro rest hends
    rw [List.append_assoc, List.append_assoc, List.cons_append,
      ihl _ ((ends_symbol op _).blank_append hb),
      chainFrom_of_operator (hoperand levels) x (isBlank_symbol op) (productOperator_symbol hop) hb,
      ihr rest hends]
    rfl
  | ofPrimary _ ih => exact ih
  | negation hb _ ih =>
    intro rest hends
    rw [List.append_assoc, List.cons_append, operand_succ_of_minus hb, ih rest hends]
    rfl
  | @pool levels _ _ _ hb hp =>
    intro rest hends
    cases levels <;> exact operandOver_of_isPool hb hp hends
  | @number levels _ _ _ hb hn =>
    intro rest hends
    cases levels <;> exact operandOver_of_number hb hn hends
  | @apostrophes levels _ hb =>
    intro rest _
    cases levels <;> exact operandOver_of_apostrophes hb
  | @parentheses levels b w b' e hb _ hb' ih =>
    intro rest hends
    have hclose : Ends (')' :: rest) := .cons rfl (by decide) rest
    have htext : b ++ '(' :: (w ++ (b' ++ [')'])) ++ rest =
        b ++ '(' :: (w ++ (b' ++ ')' :: rest)) := by simp
    have hdrop : Text.dropBlank (b' ++ ')' :: rest) = ')' :: rest := by
      rw [Text.dropBlank_append hb', Text.dropBlank_cons rfl]
    have hnot : ∀ c, [c] <+: Text.dropBlank (b' ++ ')' :: rest) → sumOperator c = none := by
      rw [hdrop]
      rintro c ⟨t, ht⟩
      obtain ⟨rfl, -⟩ := List.cons.inj ht
      rfl
    rw [htext, operand_succ_of_parenthesis hb,
      ih _ (hclose.blank_append hb') ((EndsTerm.cons rfl rfl rest).blank_append hb'),
      chainFrom_of_not_operator (hterm levels) e hnot, hdrop]
    rfl

/-- A derived text with blanks behind it is read as a whole. -/
theorem whole_of_derives {levels : Nat} {w b : List Char} {e : Expression}
    (h : Derives .expression levels w e) (hb : Text.Blank b) : whole levels (w ++ b) = .ok e := by
  have hdrop : Text.dropBlank b = [] := Text.dropBlank_eq_nil_iff.mpr hb
  have hnot : ∀ (operator : Char → Option Operator) (c : Char),
      [c] <+: Text.dropBlank b → operator c = none := by
    intro operator c hc
    rw [hdrop] at hc
    cases List.prefix_nil.mp hc
  have hends : Ends b := by
    rw [← List.append_nil b]
    exact Ends.blank_append hb fun c hc => nomatch List.prefix_nil.mp hc
  rw [whole, reads_of_derives h b hends (hnot _),
    chainFrom_of_not_operator (chain_advances (operand_advances levels)) e (hnot _), hdrop]
  rfl

end Reader

/-! ## Whole texts -/

theorem parse_eq_ok_iff_whole {source : String} {e : Expression} :
    parse source = .ok e ↔ Reader.whole maxNesting source.toList = .ok e := by
  unfold parse
  cases Reader.whole maxNesting source.toList <;> simp [Except.mapError]

theorem denotes_of_parse {source : String} {e : Expression} (h : parse source = .ok e) :
    Denotes source e :=
  Reader.derives_of_whole (parse_eq_ok_iff_whole.mp h)

theorem parse_of_denotes {source : String} {e : Expression} (h : Denotes source e) :
    parse source = .ok e := by
  obtain ⟨w, b, hsource, hb, hw⟩ := h
  rw [parse_eq_ok_iff_whole, hsource]
  exact Reader.whole_of_derives hw hb

/-- **Reading follows the grammar.** A text reads into an expression exactly if the grammar
derives that expression from it, so the grammar is not ambiguous either. -/
theorem parse_eq_ok_iff_denotes (source : String) (e : Expression) :
    parse source = .ok e ↔ Denotes source e :=
  ⟨denotes_of_parse, parse_of_denotes⟩

end RollMenu.Dice
