import Mathlib
import RollMenu.Proofs.GrammarReading

/-!
# Writing an expression that was read

The writer looks at the tree alone: it puts an operand in parentheses when the operand
binds less than its place asks for. The reader has seen the source, with whatever
parentheses and blanks it had. The main statement is that what is written reads into the
same tree, and has no more parentheses than any source of that tree.

Both are said along the derivation of the source. Where an operand binds too little for its
category, the grammar leaves the source no way but parentheses, so the writer adds only
what was there: as many characters, and as much nesting. The second half matters to the
reader, which stops when the nesting gets too deep.
-/

namespace RollMenu.Dice

variable {c c' : Category} {levels levels' parens : Nat} {w : List Char} {e x y : Expression}

/-! ## Categories and strengths -/

/-- How strongly an expression of the category holds together outside of parentheses. -/
def Category.strength : Category → Nat
  | expression => 1
  | term => 2
  | operand => 3
  | primary => 4

theorem Category.strength_le (c : Category) : c.strength ≤ Category.primary.strength := by
  cases c <;> decide

theorem Operator.one_le_strength (op : Operator) : 1 ≤ op.strength := by
  cases op <;> decide

theorem Expression.one_le_strength (e : Expression) : 1 ≤ e.strength := by
  cases e with
  | binary op _ _ => exact op.one_le_strength
  | number | empty | pool | negate => exact Nat.succ_le_succ (Nat.zero_le _)

/-- What binds more tightly may stand where less is asked for. -/
theorem Derives.lift : ∀ {c c' : Category}, Derives c levels w e → c'.strength ≤ c.strength →
    Derives c' levels w e
  | .expression, .expression, h, _ | .term, .term, h, _ | .operand, .operand, h, _
  | .primary, .primary, h, _ => h
  | .term, .expression, h, _ => .ofTerm h
  | .operand, .term, h, _ => .ofOperand h
  | .operand, .expression, h, _ => .ofTerm (.ofOperand h)
  | .primary, .operand, h, _ => .ofPrimary h
  | .primary, .term, h, _ => .ofOperand (.ofPrimary h)
  | .primary, .expression, h, _ => .ofTerm (.ofOperand (.ofPrimary h))
  | .expression, .term, _, hle | .expression, .operand, _, hle | .expression, .primary, _, hle
  | .term, .operand, _, hle | .term, .primary, _, hle | .operand, .primary, _, hle =>
    absurd hle (by decide)

/-! ## Numbers and pools -/

theorem isNumber_toDigits {max n : Nat} (h : n ≤ max) : IsNumber max (Nat.toDigits 10 n) n :=
  ⟨Decimal.digits?_toDigits n, h⟩

theorem IsKeep.write {k : Option Keep} (h : IsKeep w k) :
    IsKeep ((k.map Keep.write).getD []) k := by
  cases h with
  | missing => exact .missing
  | highest _ hn => exact .highest (Or.inl rfl) (isNumber_toDigits hn.le_max)
  | lowest _ hn => exact .lowest (Or.inl rfl) (isNumber_toDigits hn.le_max)

theorem IsPool.write {p : Pool} (h : IsPool w p) : IsPool p.write p := by
  obtain @⟨u, v, w, d, count, sides, keep, hcount, -, hsides, hkeep⟩ := h
  have hmax : count ≤ Reader.maxInPool := by
    cases hcount with
    | missing => decide
    | written hu => exact hu.le_max
  exact .intro (.written (isNumber_toDigits hmax)) (Or.inl rfl) (isNumber_toDigits hsides.le_max)
    hkeep.write

theorem count_toDigits (n : Nat) : (Nat.toDigits 10 n).count '(' = 0 := by
  refine List.count_eq_zero.mpr ?_
  intro h
  cases Nat.isDigit_of_mem_toDigits (b := 10) (by decide) (by decide) h

theorem Pool.count_write (p : Pool) : p.write.count '(' = 0 := by
  obtain ⟨count, sides, keep⟩ := p
  rcases keep with _ | ⟨n⟩ | ⟨n⟩ <;> simp [Pool.write, Keep.write, count_toDigits]

/-! ## Operands -/

/-- The expression can be written with so much nesting and so many parentheses at most. -/
structure Written (levels parens : Nat) (e : Expression) : Prop where
  /-- What is written derives the expression in every category that it is strong enough for. -/
  derives : ∀ c : Category, c.strength ≤ e.strength → Derives c levels e.write e
  count_le : e.write.count '(' ≤ parens

theorem Written.mono {parens' : Nat} (h : Written levels parens e) (hlevels : levels ≤ levels')
    (hparens : parens ≤ parens') : Written levels' parens' e :=
  ⟨fun c hc => (h.derives c hc).mono hlevels, h.count_le.trans hparens⟩

/-- The expression can be written in place of a text of the category that had so much nesting and
so many parentheses. If it is too weak for the category, parentheses are among them. -/
structure WrittenAs (c : Category) (levels parens : Nat) (e : Expression) : Prop where
  written : Written levels parens e
  inner : e.strength < c.strength →
    ∃ levels' parens', levels = levels' + 1 ∧ parens' < parens ∧ Written levels' parens' e

/-- **An operand that is written where the category is asked for**, in parentheses if it has to
be. -/
theorem WrittenAs.derives (h : WrittenAs c levels parens e) (needed : Bool)
    (hneeded : needed = true ↔ e.strength < c.strength) :
    Derives c levels (Expression.inParentheses needed e.write) e ∧
      (Expression.inParentheses needed e.write).count '(' ≤ parens := by
  cases hn : needed with
  | true =>
    obtain ⟨levels', parens', rfl, hlt, hw⟩ := h.inner (hneeded.mp hn)
    have hprimary : Derives .primary (levels' + 1) ([] ++ '(' :: (e.write ++ ([] ++ [')']))) e :=
      .parentheses (List.forall_mem_nil _) (hw.derives .expression e.one_le_strength)
        (List.forall_mem_nil _)
    refine ⟨hprimary.lift c.strength_le, ?_⟩
    have hcount : (Expression.inParentheses true e.write).count '(' = e.write.count '(' + 1 := by
      simp [Expression.inParentheses]
    rw [hcount]
    exact (Nat.succ_le_succ hw.count_le).trans hlt
  | false =>
    have hstrong : c.strength ≤ e.strength := by
      rw [hn] at hneeded
      exact Nat.le_of_not_lt fun hlt => Bool.false_ne_true (hneeded.mpr hlt)
    exact ⟨h.written.derives c hstrong, h.written.count_le⟩

/-- Blanks in the source count for nothing. -/
theorem count_append_le (b w : List Char) : w.count '(' ≤ (b ++ w).count '(' := by
  rw [List.count_append]
  exact Nat.le_add_left _ _

/-- **Two operands that are joined.** `hjoin` is the rule of the grammar for operators of this
strength. -/
theorem WrittenAs.binary {op : Operator} {l b r : List Char}
    (hx : WrittenAs c levels (l.count '(') x) (hy : WrittenAs c' levels (r.count '(') y)
    (hc : c.strength = op.strength) (hc' : c'.strength = op.strength + 1)
    (hjoin : ∀ {l b r}, Derives c levels l x → Text.Blank b → Derives c' levels r y →
      Derives c levels (l ++ (b ++ op.symbol :: r)) (.binary op x y)) :
    WrittenAs c levels ((l ++ (b ++ op.symbol :: r)).count '(') (.binary op x y) := by
  obtain ⟨hl, hlcount⟩ := hx.derives (x.strength < op.strength) (by simp [hc])
  obtain ⟨hr, hrcount⟩ := hy.derives (y.strength ≤ op.strength)
    (by rw [hc', decide_eq_true_iff, Nat.lt_succ_iff])
  have hblank : Text.Blank [' '] := by decide
  have hsymbol : [op.symbol].count '(' = 0 := by cases op <;> rfl
  refine ⟨⟨?_, ?_⟩, ?_⟩
  · intro c'' hc''
    refine (hjoin hl hblank (hr.blank_append hblank)).lift ?_
    rw [hc]
    exact hc''
  · have hwrite : (Expression.binary op x y).write =
        Expression.inParentheses (x.strength < op.strength) x.write ++ ([' '] ++ ([op.symbol] ++
          ([' '] ++ Expression.inParentheses (y.strength ≤ op.strength) y.write))) := rfl
    have hsource : l ++ (b ++ op.symbol :: r) = l ++ (b ++ ([op.symbol] ++ r)) := rfl
    rw [hwrite, hsource]
    simp only [List.count_append, hsymbol]
    have hspace : [' '].count '(' = 0 := rfl
    omega
  · intro hlt
    rw [hc] at hlt
    exact absurd hlt (Nat.lt_irrefl _)

/-- What stands by itself is written without parentheses. -/
theorem WrittenAs.of_primary (h : Derives .primary levels e.write e) (hstrength : e.strength = 4)
    (hcount : e.write.count '(' = 0) : WrittenAs .primary levels parens e := by
  refine ⟨⟨fun c _ => h.lift c.strength_le, by rw [hcount]; exact Nat.zero_le _⟩, ?_⟩
  intro hlt
  rw [hstrength] at hlt
  exact absurd hlt (Nat.lt_irrefl _)

/-- **Whatever derives an expression, the expression can be written in its place.** By induction on
the derivation. -/
theorem Derives.writtenAs (h : Derives c levels w e) : WrittenAs c levels (w.count '(') e := by
  have hnil : Text.Blank [] := List.forall_mem_nil _
  induction h with
  | @ofTerm levels w e _ ih =>
    exact ⟨ih.written, fun hlt => absurd e.one_le_strength (Nat.not_le.mpr hlt)⟩
  | ofOperand _ ih => exact ⟨ih.written, fun hlt => ih.inner (Nat.lt_succ_of_lt hlt)⟩
  | ofPrimary _ ih => exact ⟨ih.written, fun hlt => ih.inner (Nat.lt_succ_of_lt hlt)⟩
  | sum hop _ _ _ ihl ihr =>
    refine ihl.binary ihr ?_ ?_ (.sum hop)
    all_goals rcases hop with rfl | rfl <;> rfl
  | product hop _ _ _ ihl ihr =>
    refine ihl.binary ihr ?_ ?_ (.product hop)
    all_goals rcases hop with rfl | rfl <;> rfl
  | @negation levels b w e _ _ ih =>
    obtain ⟨hw, hcount⟩ := ih.derives (e.strength < 3) (by simp [Category.strength])
    have hnegate : Derives .operand (levels + 1) (Expression.negate e).write (.negate e) :=
      .negation hnil hw
    refine ⟨⟨fun c hc => hnegate.lift hc, ?_⟩, fun hlt => absurd hlt (Nat.lt_irrefl _)⟩
    have hle := count_append_le b ('-' :: w)
    simp only [Expression.write, List.count_cons] at hle ⊢
    exact (Nat.add_le_add_right hcount _).trans hle
  | pool _ hp => exact .of_primary (.pool (b := []) hnil hp.write) rfl (Pool.count_write _)
  | number _ hn =>
    exact .of_primary (.number (b := []) hnil (isNumber_toDigits hn.le_max)) rfl (count_toDigits _)
  | apostrophes _ => exact .of_primary (.apostrophes hnil) rfl rfl
  | @parentheses levels b w b' e _ _ _ ih =>
    have hlt : w.count '(' < (b ++ '(' :: (w ++ (b' ++ [')']))).count '(' := by
      simp only [List.count_append, List.count_cons_self]
      omega
    exact ⟨ih.written.mono (Nat.le_succ levels) (Nat.le_of_lt hlt),
      fun _ => ⟨levels, w.count '(', rfl, hlt, ih.written⟩⟩

/-- **Writing an expression that was read loses nothing and adds no parentheses.** What is written
reads into the same expression, and no text that reads into it has fewer parentheses. -/
theorem parse_text_of_parse {source : String} (h : parse source = .ok e) :
    parse e.text = .ok e ∧ e.text.toList.count '(' ≤ source.toList.count '(' := by
  obtain ⟨w, b, hsource, hb, hw⟩ := denotes_of_parse h
  have hwritten := hw.writtenAs.written
  have htext : e.text.toList = e.write := String.toList_ofList
  constructor
  · refine parse_of_denotes ⟨e.write, [], ?_, List.forall_mem_nil _, ?_⟩
    · rw [htext, List.append_nil]
    · exact hwritten.derives .expression e.one_le_strength
  · rw [htext, hsource, List.count_append]
    exact hwritten.count_le.trans (Nat.le_add_right _ _)

/-- Every kind of operand, with blanks and with parentheses that are needed and that are not. -/
theorem parse_text_of_parse_nested :
    ∃ e, parse "(( 1))+(2*-( 3- (D6) ) )/(''-(4d06K3-07)) - -(-(5))" = .ok e ∧
      e.text = "1 + 2 * -(3 - 1d6) / ('' - (4d6k3 - 7)) - --5" ∧ parse e.text = .ok e ∧
      e.text.toList.count '(' ≤ 9 := by
  obtain ⟨e, he, htext⟩ := exists_of_map_ok (by cbv :
    (parse "(( 1))+(2*-( 3- (D6) ) )/(''-(4d06K3-07)) - -(-(5))").map Expression.text =
      .ok "1 + 2 * -(3 - 1d6) / ('' - (4d6k3 - 7)) - --5")
  obtain ⟨hparse, hcount⟩ := parse_text_of_parse he
  exact ⟨e, he, htext, hparse, hcount⟩

end RollMenu.Dice
