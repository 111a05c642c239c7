import RollMenu.Proofs.GrammarReading

/-!
# How far readers look

A reader hands back what it leaves of a text, and when it meets a character that does not
fit, it says what is left from there on. In both cases it has looked at the first of the
characters that are left, and at none behind it. So whatever stands behind that one
character, the reader comes to the same end in the same place.

`LooksAt` says so of a reader on one text. Readers in a row have it from each other: what
the second one leaves lies within what the first one leaves.
-/

namespace RollMenu.Dice.Reader

variable {α β : Type} {r r' : Reader α} {cs : List Char}

/-- The result of a reader that ends here: with a value, or because what is left does not fit. -/
def ending (found : Option α) (rest : List Char) : Except Stop (α × List Char) :=
  match found with
  | some a => .ok (a, rest)
  | none => .error (.unexpected rest)

/-- On this text, the reader has seen at most the first character of what it leaves. -/
def LooksAt (r : Reader α) (cs : List Char) : Prop :=
  ∀ found rest, rest ≠ [] → r cs = ending found rest →
    ∃ read, cs = read ++ rest ∧
      ∀ rest', rest'.head? = rest.head? → r (read ++ rest') = ending found rest'

theorem error_eq_ending_iff {stop : Stop} {rest : List Char} {found : Option α} :
    (.error stop : Except Stop (α × List Char)) = ending found rest ↔
      found = none ∧ stop = .unexpected rest := by
  cases found <;> simp [ending]

theorem ending_inj {found found' : Option α} {rest rest' : List Char} :
    ending found rest = ending found' rest' ↔ found = found' ∧ rest = rest' := by
  cases found <;> cases found' <;> simp [ending]

theorem head?_append_congr {rest rest' : List Char} (read : List Char)
    (h : rest'.head? = rest.head?) : (read ++ rest').head? = (read ++ rest).head? := by
  rw [List.head?_append, List.head?_append, h]

/-- A reader that goes no further has looked at nothing but the next character. -/
theorem looksAt_of_ending (found : Option α)
    (h : ∀ cs', cs'.head? = cs.head? → r cs' = ending found cs') : r.LooksAt cs := by
  intro found' rest hne hread
  rw [h cs rfl] at hread
  obtain ⟨rfl, rfl⟩ := ending_inj.mp hread
  exact ⟨[], rfl, h⟩

/-- A reader that leaves nothing has nothing to look at. -/
theorem looksAt_of_end (found : Option α) (h : r cs = ending found []) : r.LooksAt cs := by
  intro found' rest hne hread
  rw [h] at hread
  exact absurd (ending_inj.mp hread).2.symm hne

/-- A number that is too large and a nesting that is too deep say nothing of what is left. -/
theorem looksAt_of_error (stop : Stop) (h : r cs = .error stop)
    (hstop : ∀ rest, stop ≠ .unexpected rest) : r.LooksAt cs := by
  intro found rest _ hread
  rw [h] at hread
  exact absurd (error_eq_ending_iff.mp hread).2 (hstop rest)

/-- What a reader takes off the front without looking any further can be left out. -/
theorem LooksAt.shift (read : List Char) (h : r'.LooksAt cs)
    (hr : ∀ cs', cs'.head? = cs.head? → r (read ++ cs') = r' cs') : r.LooksAt (read ++ cs) := by
  intro found rest hne hread
  rw [hr cs rfl] at hread
  obtain ⟨more, rfl, hmore⟩ := h found rest hne hread
  refine ⟨read ++ more, (List.append_assoc ..).symm, ?_⟩
  intro rest' hhead
  rw [List.append_assoc, hr _ (head?_append_congr more hhead), hmore rest' hhead]

/-- **Two readers in a row.** The first one has not looked further than the second one. -/
theorem LooksAt.bind {f : α → Reader β} (hr : r.LooksAt cs)
    (hf : ∀ a left, r cs = .ok (a, left) → (f a).LooksAt left) :
    LooksAt (fun cs => r cs >>= fun x => f x.1 x.2) cs := by
  intro found rest hne hread
  dsimp only at hread ⊢
  cases hfirst : r cs with
  | error stop =>
    rw [hfirst] at hread
    obtain ⟨rfl, rfl⟩ := error_eq_ending_iff.mp hread
    obtain ⟨read, hcs, hread⟩ := hr none rest hne hfirst
    refine ⟨read, hcs, ?_⟩
    intro rest' hhead
    rw [hread rest' hhead]
    rfl
  | ok first =>
    obtain ⟨a, left⟩ := first
    rw [hfirst] at hread
    obtain ⟨second, rfl, hsecond⟩ := hf a left hfirst found rest hne hread
    have hleft : second ++ rest ≠ [] := List.append_ne_nil_of_right_ne_nil second hne
    obtain ⟨read, hcs, hread⟩ := hr (some a) _ hleft hfirst
    refine ⟨read ++ second, by rw [hcs, List.append_assoc], ?_⟩
    intro rest' hhead
    rw [List.append_assoc, hread _ (head?_append_congr second hhead)]
    exact hsecond rest' hhead

/-- What is made of the value makes no difference. -/
theorem LooksAt.map (hr : r.LooksAt cs) (f : α → β) :
    LooksAt (fun cs => r cs >>= fun x => .ok (f x.1, x.2)) cs :=
  hr.bind (f := fun a cs => .ok (f a, cs)) fun a _ _ =>
    looksAt_of_ending (some (f a)) fun _ _ => rfl

/-! ## Numbers and pools -/

theorem looksAt_digits (max : Nat) (cs : List Char) : (digits max).LooksAt cs := by
  have hcs : cs.takeWhile Char.isDigit ++ cs.dropWhile Char.isDigit = cs :=
    List.takeWhile_append_dropWhile
  have hall : ∀ c ∈ cs.takeWhile Char.isDigit, c.isDigit = true :=
    List.all_eq_true.mp List.all_takeWhile
  have hstop : ∀ rest : List Char, rest.head? = (cs.dropWhile Char.isDigit).head? →
      ∀ c, [c] <+: rest → c.isDigit = false := by
    rintro rest hhead c ⟨t, rfl⟩
    have hdrop := List.head?_dropWhile_not Char.isDigit cs
    rw [← hhead] at hdrop
    simpa using hdrop
  generalize cs.takeWhile Char.isDigit = run, cs.dropWhile Char.isDigit = behind at hcs hall hstop
  subst hcs
  by_cases hrun : run = []
  · -- without a digit in front nothing is read
    subst hrun
    refine looksAt_of_ending none ?_
    intro cs' hhead
    have hrun' : cs'.takeWhile Char.isDigit = [] := by
      cases cs' with
      | nil => rfl
      | cons c t => simp [hstop _ hhead c ⟨t, rfl⟩]
    rw [digits, hrun']
    rfl
  · have hreads : ∀ rest : List Char, rest.head? = behind.head? →
        digits max (run ++ rest) =
          if max < Nat.ofDigitChars 10 run 0 then .error .tooLarge else .ok (_, rest) :=
      fun rest hhead => digits_append (Decimal.digits?_of_isDigit hrun hall) (hstop rest hhead)
    by_cases hmax : max < Nat.ofDigitChars 10 run 0
    · refine looksAt_of_error .tooLarge ?_ (by simp)
      rw [hreads behind rfl, if_pos hmax]
    · have hends : LooksAt (fun cs => .ok (Nat.ofDigitChars 10 run 0, cs)) behind :=
        looksAt_of_ending (some _) fun _ _ => rfl
      refine hends.shift run ?_
      intro rest hhead
      rw [hreads rest hhead, if_neg hmax]

theorem looksAt_keep (cs : List Char) : keep.LooksAt cs := by
  cases cs with
  | nil => exact looksAt_of_end (some none) rfl
  | cons c cs =>
    cases hc : keepOf c with
    | none =>
      refine looksAt_of_ending (some none) ?_
      intro cs' hhead
      obtain ⟨t, rfl⟩ := List.head?_eq_some_iff.mp hhead
      rw [keep_cons, hc]
      rfl
    | some kept =>
      have hread := (looksAt_digits maxInPool cs).map fun n => some (kept n)
      refine hread.shift [c] ?_
      intro cs' _
      rw [List.singleton_append, keep_cons, hc]
      rfl

theorem looksAt_pool (count : Nat) (cs : List Char) : (pool count).LooksAt cs :=
  (looksAt_digits maxInPool cs).bind fun sides left _ =>
    (looksAt_keep left).map fun kept => Expression.pool { count, sides, keep := kept }

theorem looksAt_afterNumber (n : Nat) (cs : List Char) : (afterNumber n).LooksAt cs := by
  cases cs with
  | nil => exact looksAt_of_end (some (.number n)) rfl
  | cons c cs =>
    by_cases hd : c = 'd' ∨ c = 'D'
    · by_cases hmax : maxInPool < n
      · refine looksAt_of_error .tooLarge ?_ (by simp)
        rw [afterNumber_cons, if_pos hd, if_pos hmax]
      · refine (looksAt_pool n cs).shift [c] ?_
        intro cs' _
        rw [List.singleton_append, afterNumber_cons, if_pos hd, if_neg hmax]
    · refine looksAt_of_ending (some (.number n)) ?_
      intro cs' hhead
      obtain ⟨t, rfl⟩ := List.head?_eq_some_iff.mp hhead
      rw [afterNumber_cons, if_neg hd]
      rfl

theorem looksAt_numberOrPool (cs : List Char) : numberOrPool.LooksAt cs :=
  (looksAt_digits maxNumber cs).bind fun n left _ => looksAt_afterNumber n left

/-! ## Blanks -/

/-- What is left without its blanks starts with a character that is none. -/
theorem isBlank_of_dropBlank {c : Char} {tail : List Char} (h : Text.dropBlank cs = c :: tail) :
    Text.isBlank c = false := by
  have hdrop := List.head?_dropWhile_not Text.isBlank cs
  rw [← Text.dropBlank, h] at hdrop
  simpa using hdrop

/-- A reader that passes over blanks has to be followed from behind them only. -/
theorem LooksAt.of_dropBlank (hr : ∀ cs', r (Text.dropBlank cs') = r cs')
    (h : r.LooksAt (Text.dropBlank cs)) : r.LooksAt cs := by
  obtain ⟨b, hb, hcs⟩ := Text.exists_blank_append cs
  cases hdrop : Text.dropBlank cs with
  | nil =>
    intro found rest hne hread
    rw [← hr, hdrop] at hread
    rw [hdrop] at h
    obtain ⟨read, hnil, -⟩ := h found rest hne hread
    exact absurd (List.append_eq_nil_iff.mp hnil.symm).2 hne
  | cons c tail =>
    rw [hdrop] at h
    rw [hcs, hdrop]
    refine h.shift b ?_
    intro cs' hhead
    obtain ⟨t, rfl⟩ := List.head?_eq_some_iff.mp hhead
    rw [← hr, Text.dropBlank_append hb, hr]

/-! ## Chains -/

section Chain

variable {operator : Char → Option Operator} {operand : Reader Expression}

/-- By induction on the text, which gets shorter with each operand. -/
theorem looksAt_chainFrom (hadvances : operand.Advances) (hoperand : ∀ cs, operand.LooksAt cs)
    (left : Expression) (cs : List Char) : (chainFrom operator operand left).LooksAt cs := by
  induction hn : cs.length using Nat.strongRecOn generalizing left cs with
  | ind n ih =>
    subst hn
    refine LooksAt.of_dropBlank (chainFrom_dropBlank hadvances left) ?_
    cases hdrop : Text.dropBlank cs with
    | nil =>
      refine looksAt_of_end (some left) ?_
      rw [chainFrom_eq hadvances]
      rfl
    | cons c tail =>
      have hc := isBlank_of_dropBlank hdrop
      cases hop : operator c with
      | none =>
        -- the chain ends in front of a character that is none of its operators
        refine looksAt_of_ending (some left) ?_
        intro cs' hhead
        obtain ⟨t, rfl⟩ := List.head?_eq_some_iff.mp hhead
        rw [chainFrom_eq hadvances, Text.dropBlank_cons hc]
        dsimp only
        rw [hop]
        rfl
      | some op =>
        have hnext := (hoperand tail).bind
          (f := fun right => chainFrom operator operand (.binary op left right)) ?_
        · refine hnext.shift [c] ?_
          intro cs' _
          exact chainFrom_of_operator hadvances left hc hop (List.forall_mem_nil _) cs'
        · intro right left' hright
          have hle := (hadvances hright).length_le
          have hshorter : left'.length < cs.length := by
            have htail := (dropBlank_suffix cs).length_le
            rw [hdrop, List.length_cons] at htail
            omega
          exact ih left'.length hshorter _ left' rfl

theorem looksAt_chain (hadvances : operand.Advances) (hoperand : ∀ cs, operand.LooksAt cs)
    (cs : List Char) : (chain operator operand).LooksAt cs :=
  (hoperand cs).bind fun first left _ => looksAt_chainFrom hadvances hoperand first left

theorem looksAt_expressionOf (hadvances : operand.Advances) (hoperand : ∀ cs, operand.LooksAt cs)
    (cs : List Char) : (expressionOf operand).LooksAt cs :=
  looksAt_chain (chain_advances hadvances) (looksAt_chain hadvances hoperand) cs

end Chain

/-! ## Operands -/

theorem looksAt_apostrophe (cs : List Char) : apostrophe.LooksAt cs := by
  cases cs with
  | nil => exact looksAt_of_end none rfl
  | cons c cs =>
    by_cases hc : c = '\''
    · subst hc
      have hends : LooksAt (fun cs => .ok (Expression.empty, cs)) cs :=
        looksAt_of_ending (some .empty) fun _ _ => rfl
      exact hends.shift ['\''] fun _ _ => rfl
    · refine looksAt_of_ending none ?_
      intro cs' hhead
      obtain ⟨t, rfl⟩ := List.head?_eq_some_iff.mp hhead
      rw [apostrophe_cons, if_neg hc]
      rfl

theorem looksAt_closing (e : Expression) (cs : List Char) :
    LooksAt (parenthesized.closing e) cs := by
  refine LooksAt.of_dropBlank ?_ ?_
  · intro cs'
    rw [parenthesized.closing, parenthesized.closing, Text.dropBlank_dropBlank]
  cases hdrop : Text.dropBlank cs with
  | nil => exact looksAt_of_end none rfl
  | cons c tail =>
    have hcons := fun tail' =>
      closing_cons e (Text.dropBlank_cons (isBlank_of_dropBlank hdrop) tail')
    by_cases hclose : c = ')'
    · have hends : LooksAt (fun cs => .ok (e, cs)) tail :=
        looksAt_of_ending (some e) fun _ _ => rfl
      refine hends.shift [c] ?_
      intro cs' _
      rw [List.singleton_append, hcons, if_pos hclose]
    · refine looksAt_of_ending none ?_
      intro cs' hhead
      obtain ⟨t, rfl⟩ := List.head?_eq_some_iff.mp hhead
      rw [hcons, if_neg hclose]
      rfl

section Operand

variable {inner : Option (Reader Expression)}
  (hinner : ∀ r, inner = some r → r.Advances ∧ ∀ cs, r.LooksAt cs)
include hinner

theorem looksAt_negation (cs : List Char) : (negation inner).LooksAt cs := by
  cases inner with
  | none => exact looksAt_of_error .tooDeep rfl (by simp)
  | some r => exact ((hinner r rfl).2 cs).map Expression.negate

theorem looksAt_parenthesized (cs : List Char) : (parenthesized inner).LooksAt cs := by
  cases inner with
  | none => exact looksAt_of_error .tooDeep rfl (by simp)
  | some r =>
    obtain ⟨hadvances, hlooks⟩ := hinner r rfl
    exact (looksAt_expressionOf hadvances hlooks cs).bind fun e left _ => looksAt_closing e left

theorem looksAt_operandOver (cs : List Char) : (operandOver inner).LooksAt cs := by
  refine LooksAt.of_dropBlank ?_ ?_
  · intro cs'
    rw [operandOver, operandOver, Text.dropBlank_dropBlank]
  cases hdrop : Text.dropBlank cs with
  | nil => exact looksAt_of_end none rfl
  | cons c tail =>
    have hcons := fun tail' =>
      operandOver_cons inner (Text.dropBlank_cons (isBlank_of_dropBlank hdrop) tail')
    -- every part of the grammar goes on behind its first character, or with it
    have hbehind : ∀ {r : Reader Expression}, (∀ cs, r.LooksAt cs) →
        (∀ tail', operandOver inner (c :: tail') = r tail') →
        (operandOver inner).LooksAt (c :: tail) :=
      fun hr heq => (hr tail).shift [c] fun tail' _ => heq tail'
    by_cases hminus : c = '-'
    · refine hbehind (looksAt_negation hinner) fun tail' => ?_
      rw [hcons, if_pos hminus]
    by_cases hopen : c = '('
    · refine hbehind (looksAt_parenthesized hinner) fun tail' => ?_
      rw [hcons, if_neg hminus, if_pos hopen]
    by_cases hapostrophe : c = '\''
    · refine hbehind looksAt_apostrophe fun tail' => ?_
      rw [hcons, if_neg hminus, if_neg hopen, if_pos hapostrophe]
    by_cases hd : c = 'd' ∨ c = 'D'
    · refine hbehind (looksAt_pool 1) fun tail' => ?_
      rw [hcons, if_neg hminus, if_neg hopen, if_neg hapostrophe, if_pos hd]
    · refine (looksAt_numberOrPool (c :: tail)).shift [] ?_
      intro cs' hhead
      obtain ⟨t, rfl⟩ := List.head?_eq_some_iff.mp hhead
      rw [List.nil_append, hcons, if_neg hminus, if_neg hopen, if_neg hapostrophe, if_neg hd]

end Operand

theorem looksAt_operand (levels : Nat) (cs : List Char) : (operand levels).LooksAt cs := by
  induction levels generalizing cs with
  | zero =>
    refine looksAt_operandOver ?_ cs
    intro r hr
    cases hr
  | succ levels ih =>
    refine looksAt_operandOver ?_ cs
    intro r hr
    obtain rfl := Option.some.inj hr
    exact ⟨operand_advances levels, ih⟩

/-! ## Whole texts -/

/-- Reads the end of the text. -/
def toEnd (e : Expression) : Reader Expression := fun cs =>
  match Text.dropBlank cs with
  | [] => .ok (e, [])
  | rest => .error (.unexpected rest)

theorem whole_eq (levels : Nat) (cs : List Char) :
    whole levels cs =
      (expressionOf (operand levels) cs >>= fun e => toEnd e.1 e.2).map Prod.fst := by
  unfold whole toEnd
  cases expressionOf (operand levels) cs with
  | error stop => rfl
  | ok e =>
    simp only [bind, Except.bind]
    cases Text.dropBlank e.2 with
    | nil => rfl
    | cons c rest => rfl

theorem whole_eq_error_iff {levels : Nat} {stop : Stop} :
    whole levels cs = .error stop ↔
      (expressionOf (operand levels) cs >>= fun e => toEnd e.1 e.2) = .error stop := by
  rw [whole_eq]
  cases expressionOf (operand levels) cs >>= fun e => toEnd e.1 e.2 with
  | error stop' => simp [Except.map]
  | ok e => simp [Except.map]

theorem looksAt_toEnd (e : Expression) (cs : List Char) : (toEnd e).LooksAt cs := by
  refine LooksAt.of_dropBlank ?_ ?_
  · intro cs'
    rw [toEnd, toEnd, Text.dropBlank_dropBlank]
  cases hdrop : Text.dropBlank cs with
  | nil => exact looksAt_of_end (some e) rfl
  | cons c tail =>
    refine looksAt_of_ending none ?_
    intro cs' hhead
    obtain ⟨t, rfl⟩ := List.head?_eq_some_iff.mp hhead
    rw [toEnd, Text.dropBlank_cons (isBlank_of_dropBlank hdrop)]
    rfl

/-- **Nothing behind the character where reading gets stuck makes a difference.** -/
theorem whole_stuck_congr {levels : Nat} {rest : List Char} (hne : rest ≠ [])
    (h : whole levels cs = .error (.unexpected rest)) :
    ∃ read, cs = read ++ rest ∧ ∀ rest', rest'.head? = rest.head? →
      whole levels (read ++ rest') = .error (.unexpected rest') := by
  have hlooks := (looksAt_expressionOf (operand_advances levels) (looksAt_operand levels) cs).bind
    fun e left _ => looksAt_toEnd e left
  obtain ⟨read, hcs, hread⟩ := hlooks none rest hne (whole_eq_error_iff.mp h)
  exact ⟨read, hcs, fun rest' hhead => whole_eq_error_iff.mpr (hread rest' hhead)⟩

end RollMenu.Dice.Reader
