import RollMenu.Proofs.NumberPlaces
import RollMenu.Proofs.Readers

/-!
# Reading texts that differ in a number

Put another numeral into a gap of a text, one of a smaller value. It is read into the same
place of the tree, because the value is all that a reader asks of a numeral. So what the
text reads into is a function of the number.

The readers are gone through one by one. `Tracks` says of each that it either stops ahead
of the gap, and then has not seen the number, or passes it and has put it in a place.
-/

namespace RollMenu.Dice

/-! ## Gaps in texts -/

/-- A gap in a text, and a number that fills it. -/
structure Gap where
  before : List Char
  behind : List Char
  /-- No digit stands next to the gap, so a numeral in it is the whole number. -/
  before_isDigit : ∀ c, [c] <:+ before → c.isDigit = false
  behind_isDigit : ∀ c, [c] <+: behind → c.isDigit = false
  numeral : List Char
  top : Nat
  numeral_value : Decimal.digits? numeral = some top

/-- The letters in front of the numbers of a pool. -/
def poolLetters : List Char := ['d', 'D', 'k', 'K', 'l', 'L']

namespace Gap

variable {g : Gap} {w : List Char} {n : Nat}

/-- The text from somewhere ahead of the gap, with `w` in the gap. -/
def onward (g : Gap) (ahead w : List Char) : List Char := ahead ++ (w ++ g.behind)

theorem onward_cons (g : Gap) (c : Char) (cs w : List Char) :
    g.onward (c :: cs) w = c :: g.onward cs w := rfl

/-- The number in the gap belongs to no pool. -/
def Alone (g : Gap) : Prop :=
  (∀ c, [c] <:+ g.before → c ∉ poolLetters) ∧ ∀ c, [c] <+: g.behind → c ∉ poolLetters

/-- What is left of a text starts with a digit once it is at the gap. -/
theorem exists_onward_nil (g : Gap) (h : Decimal.digits? w = some n) :
    ∃ c cs, g.onward [] w = c :: cs ∧ c.isDigit = true := by
  obtain ⟨hne, hdigit, -⟩ := Decimal.isDigit_of_digits? h
  obtain ⟨c, cs, rfl⟩ := List.exists_cons_of_ne_nil hne
  exact ⟨c, cs ++ g.behind, rfl, hdigit c List.mem_cons_self⟩

/-- Blanks that are dropped stand ahead of the gap. -/
theorem dropBlank_onward (g : Gap) (ahead : List Char) (h : Decimal.digits? w = some n) :
    Text.dropBlank (g.onward ahead w) = g.onward (Text.dropBlank ahead) w := by
  obtain ⟨c, cs, hcs, hdigit⟩ := g.exists_onward_nil h
  have hstart : Text.dropBlank (g.onward [] w) = g.onward [] w := by
    rw [hcs, Text.dropBlank, List.dropWhile_cons_of_neg]
    rw [Text.isBlank_of_isDigit hdigit]
    exact Bool.false_ne_true
  have happend : g.onward ahead w = ahead ++ g.onward [] w := rfl
  rw [happend, Text.dropBlank, List.dropWhile_append, ← Text.dropBlank, ← Text.dropBlank, hstart]
  split
  · rename_i hempty
    rw [List.isEmpty_iff.mp hempty]
  · rfl

/-- With nothing but blanks ahead of the gap a digit comes next. -/
theorem exists_dropBlank_onward {ahead : List Char} (hahead : Text.dropBlank ahead = [])
    (h : Decimal.digits? w = some n) :
    ∃ c cs, Text.dropBlank (g.onward ahead w) = c :: cs ∧ g.onward [] w = c :: cs ∧
      c.isDigit = true := by
  obtain ⟨c, cs, hcs, hdigit⟩ := g.exists_onward_nil h
  refine ⟨c, cs, ?_, hcs, hdigit⟩
  rw [g.dropBlank_onward ahead h, hahead, hcs]

theorem dropBlank_onward_cons {ahead cs : List Char} {c : Char}
    (hahead : Text.dropBlank ahead = c :: cs) (h : Decimal.digits? w = some n) :
    Text.dropBlank (g.onward ahead w) = c :: g.onward cs w := by
  rw [g.dropBlank_onward ahead h, hahead, onward_cons]

/-! ## What becomes of the number -/

/-- What a reader that starts at `ahead` makes of the number in the gap. It succeeds in the same
way on all smaller numbers. -/
inductive Sees (g : Gap) {α : Type} (V : (Nat → α) → List Char → Prop) (ahead : List Char)
    (run : List Char → Except Stop (α × List Char)) : α → List Char → Prop where
  /-- It stops ahead of the gap, whatever the number is. -/
  | stops (a : α) (left : List Char) (hleft : left <:+ ahead)
      (h : ∀ w n, Decimal.digits? w = some n → n ≤ g.top → run w = .ok (a, g.onward left w)) :
      Sees g V ahead run a (g.onward left g.numeral)
  /-- It has read the number and has put it in a place. -/
  | passes (F : Nat → α) (rest : List Char) (hF : V F rest)
      (h : ∀ w n, Decimal.digits? w = some n → n ≤ g.top → run w = .ok (F n, rest)) :
      Sees g V ahead run (F g.top) rest

/-- Success on the number in the gap says what becomes of the number. -/
def Tracks (g : Gap) {α : Type} (V : (Nat → α) → List Char → Prop) (ahead : List Char)
    (run : List Char → Except Stop (α × List Char)) : Prop :=
  ∀ a rest, run g.numeral = .ok (a, rest) → g.Sees V ahead run a rest

variable {α β : Type} {V : (Nat → α) → List Char → Prop} {W : (Nat → β) → List Char → Prop}
  {ahead : List Char} {run run' : List Char → Except Stop (α × List Char)}

theorem Sees.congr {a : α} {rest : List Char} (h : g.Sees V ahead run' a rest)
    (hrun : ∀ w n, Decimal.digits? w = some n → n ≤ g.top → run w = run' w) :
    g.Sees V ahead run a rest := by
  cases h with
  | stops a left hleft h =>
    refine .stops a left hleft ?_
    intro w n hw hn
    rw [hrun w n hw hn, h w n hw hn]
  | passes F rest hF h =>
    refine .passes F rest hF ?_
    intro w n hw hn
    rw [hrun w n hw hn, h w n hw hn]

theorem Tracks.congr (h : g.Tracks V ahead run')
    (hrun : ∀ w n, Decimal.digits? w = some n → run w = run' w) : g.Tracks V ahead run := by
  intro a rest hok
  rw [hrun _ _ g.numeral_value] at hok
  exact (h a rest hok).congr fun w n hw _ => hrun w n hw

theorem Tracks.mono {ahead' : List Char} (h : g.Tracks V ahead run) (ha : ahead <:+ ahead') :
    g.Tracks V ahead' run := by
  intro a rest hok
  cases h a rest hok with
  | stops a left hleft h => exact .stops a left (hleft.trans ha) h
  | passes F rest hF h => exact .passes F rest hF h

theorem tracks_ok (a : α) (g : Gap) (V : (Nat → α) → List Char → Prop) (ahead : List Char) :
    g.Tracks V ahead fun w => .ok (a, g.onward ahead w) := by
  intro a' rest h
  obtain ⟨rfl, rfl⟩ := Prod.mk.inj (Except.ok.inj h)
  exact .stops a ahead List.suffix_rfl fun _ _ _ _ => rfl

theorem tracks_error (stop : List Char → Stop) (g : Gap) (V : (Nat → α) → List Char → Prop)
    (ahead : List Char) : g.Tracks V ahead fun w => .error (stop w) := by
  intro a rest h
  cases h

/-- What follows on a reader that has passed the gap keeps the number in a place. -/
def Carries (g : Gap) (V : (Nat → α) → List Char → Prop) (W : (Nat → β) → List Char → Prop)
    (next : α × List Char → Except Stop (β × List Char)) : Prop :=
  ∀ F rest b rest', V F rest → next (F g.top, rest) = .ok (b, rest') →
    ∃ G, W G rest' ∧ ∀ n, n ≤ g.top → next (F n, rest) = .ok (G n, rest')

/-- **Two readers in a row.** -/
theorem Tracks.bind {next : α × List Char → Except Stop (β × List Char)}
    (h : g.Tracks V ahead run)
    (hstops : ∀ a left, left <:+ ahead → g.Tracks W left fun w => next (a, g.onward left w))
    (hpasses : g.Carries V W next) : g.Tracks W ahead fun w => run w >>= next := by
  intro b rest hok
  obtain ⟨⟨a, rest'⟩, hrun, hnext⟩ := exists_of_bind_ok hok
  cases h a rest' hrun with
  | stops _ left hleft h =>
    refine ((hstops a left hleft).mono hleft b rest hnext).congr ?_
    intro w n hw hn
    rw [h w n hw hn]
    rfl
  | passes F _ hF h =>
    obtain ⟨G, hG, hG'⟩ := hpasses F rest' b rest hF hnext
    obtain ⟨rfl, -⟩ := Prod.mk.inj
      (Except.ok.inj (hnext.symm.trans (hG' g.top (Nat.le_refl _))))
    refine .passes G rest hG ?_
    intro w n hw hn
    rw [h w n hw hn]
    exact hG' n hn

/-! ## The readers, one by one -/

/-- The last character ahead of the gap is no digit. -/
theorem exists_isDigit_eq_false (g : Gap) (ha : ahead <:+ g.before) (hne : ahead ≠ []) :
    ∃ c ∈ ahead, c.isDigit = false := by
  obtain ⟨cs, c, rfl⟩ := (List.eq_nil_or_concat' ahead).resolve_left hne
  have hlast : [c] <:+ cs ++ [c] := List.suffix_append cs [c]
  exact ⟨c, by simp, g.before_isDigit c (hlast.trans ha)⟩

theorem digits_onward_nil (g : Gap) (max : Nat) (h : Decimal.digits? w = some n) :
    Reader.digits max (g.onward [] w) =
      if max < n then .error .tooLarge else .ok (n, g.behind) :=
  Reader.digits_append h g.behind_isDigit

theorem tracks_digits (g : Gap) (max : Nat) (ha : ahead <:+ g.before) :
    g.Tracks (fun F rest => F = id ∧ ahead = [] ∧ rest = g.behind) ahead fun w =>
      Reader.digits max (g.onward ahead w) := by
  intro m rest hok
  dsimp only at hok
  by_cases hne : ahead = []
  · subst hne
    rw [g.digits_onward_nil max g.numeral_value] at hok
    split at hok
    · cases hok
    · rename_i hmax
      obtain ⟨rfl, rfl⟩ := Prod.mk.inj (Except.ok.inj hok)
      refine .passes id g.behind ⟨rfl, rfl, rfl⟩ ?_
      intro w n hw hn
      rw [g.digits_onward_nil max hw, if_neg (by omega)]
      rfl
  · -- the run of digits that is read ends ahead of the gap
    have hspan := fun w => span_append (g.exists_isDigit_eq_false ha hne) (w ++ g.behind)
    simp only [Reader.digits, onward, hspan] at hok ⊢
    split at hok
    · cases hok
    split at hok
    · cases hok
    · rename_i hrun hmax
      obtain ⟨rfl, rfl⟩ := Prod.mk.inj (Except.ok.inj hok)
      refine .stops (Nat.ofDigitChars 10 (ahead.takeWhile Char.isDigit) 0)
        (ahead.dropWhile Char.isDigit) (List.dropWhile_suffix _) ?_
      intro w n _ _
      rw [if_neg hrun, if_neg hmax]
      rfl

theorem keepOf_eq_some {c : Char} {kept : Nat → Keep} (h : Reader.keepOf c = some kept) :
    c ∈ poolLetters ∧ ∀ n, (kept n).count = n := by
  unfold Reader.keepOf at h
  split at h
  case h_5 => cases h
  all_goals
    obtain rfl := Option.some.inj h
    exact ⟨by decide, fun _ => rfl⟩

theorem isDigit_of_mem_poolLetters {c : Char} (h : c ∈ poolLetters) : c.isDigit = false := by
  simp only [poolLetters, List.mem_cons, List.not_mem_nil, or_false] at h
  obtain rfl | rfl | rfl | rfl | rfl | rfl := h <;> rfl

theorem ne_of_isDigit {c c' : Char} (h : c.isDigit = true) (h' : c'.isDigit = false) :
    c ≠ c' := by
  rintro rfl
  rw [h] at h'
  cases h'

theorem keepOf_of_isDigit {c : Char} (h : c.isDigit = true) : Reader.keepOf c = none := by
  cases hc : Reader.keepOf c with
  | none => rfl
  | some kept =>
    rw [isDigit_of_mem_poolLetters (keepOf_eq_some hc).1] at h
    cases h

theorem not_alone_of_before {c : Char} (h : [c] <:+ g.before) (hc : c ∈ poolLetters) :
    ¬ g.Alone :=
  fun halone => halone.1 c h hc

theorem tracks_keep (g : Gap) (ha : ahead <:+ g.before) :
    g.Tracks (fun F _ => ¬ g.Alone ∧ ∃ kept : Nat → Keep, (∀ n, (kept n).count = n) ∧
        F = fun n => some (kept n)) ahead fun w => Reader.keep (g.onward ahead w) := by
  cases ahead with
  | nil =>
    refine (g.tracks_ok none _ []).congr ?_
    intro w n hw
    obtain ⟨c, cs, hcs, hdigit⟩ := g.exists_onward_nil hw
    rw [hcs, Reader.keep_cons, keepOf_of_isDigit hdigit]
  | cons c ahead =>
    simp only [onward_cons, Reader.keep_cons]
    cases hc : Reader.keepOf c with
    | none => exact g.tracks_ok none _ (c :: ahead)
    | some kept =>
      obtain ⟨hletter, hkept⟩ := keepOf_eq_some hc
      refine Tracks.mono ?_ (List.suffix_cons c ahead)
      refine (g.tracks_digits _ ((List.suffix_cons c ahead).trans ha)).bind ?_ ?_
      · intro m left _
        exact g.tracks_ok (some (kept m)) _ left
      · rintro F rest k rest' ⟨rfl, rfl, -⟩ h
        obtain ⟨-, rfl⟩ := Prod.mk.inj (Except.ok.inj h)
        exact ⟨_, ⟨not_alone_of_before ha hletter, kept, hkept, rfl⟩, fun n _ => rfl⟩

/-- The expressions that a number in the gap can end up in. -/
def Places (g : Gap) (F : Nat → Expression) (_ : List Char) : Prop := Place (¬ g.Alone) F

theorem tracks_pool (g : Gap) (count : Nat) {c : Char} (hc : c ∈ poolLetters)
    (ha : c :: ahead <:+ g.before) :
    g.Tracks g.Places ahead fun w => Reader.pool count (g.onward ahead w) := by
  have hahead := (List.suffix_cons c ahead).trans ha
  refine (g.tracks_digits _ hahead).bind ?_ ?_
  · intro sides left hleft
    refine (g.tracks_keep (hleft.trans hahead)).bind ?_ ?_
    · intro kept left' _
      exact g.tracks_ok (Expression.pool ⟨count, sides, kept⟩) _ left'
    · rintro F rest e rest' ⟨hpooled, kept, hkept, rfl⟩ h
      obtain ⟨-, rfl⟩ := Prod.mk.inj (Except.ok.inj h)
      exact ⟨_, .keep hpooled count sides kept hkept, fun n _ => rfl⟩
  · rintro F rest e rest' ⟨rfl, rfl, -⟩ h
    obtain ⟨⟨kept, rest''⟩, hkeep, h⟩ := exists_of_bind_ok h
    obtain ⟨-, rfl⟩ := Prod.mk.inj (Except.ok.inj h)
    refine ⟨_, .sides (not_alone_of_before ha hc) count kept, ?_⟩
    intro n _
    simp only [hkeep]
    rfl

/-- The count of a pool does not change how the rest of it is read. -/
theorem pool_of_count {count : Nat} {cs rest : List Char} {e : Expression}
    (h : Reader.pool count cs = .ok (e, rest)) :
    ∃ sides keep, ∀ n, Reader.pool n cs = .ok (.pool ⟨n, sides, keep⟩, rest) := by
  obtain ⟨⟨sides, cs'⟩, hsides, h⟩ := exists_of_bind_ok h
  obtain ⟨⟨keep, cs''⟩, hkeep, h⟩ := exists_of_bind_ok h
  obtain ⟨-, rfl⟩ := Prod.mk.inj (Except.ok.inj h)
  refine ⟨sides, keep, ?_⟩
  intro n
  rw [Reader.pool, hsides]
  dsimp only [bind, Except.bind] at hkeep ⊢
  rw [hkeep]
  rfl

/-- The letters of a pool between its count and its sides. -/
theorem mem_poolLetters {c : Char} (h : c = 'd' ∨ c = 'D') : c ∈ poolLetters := by
  rcases h with rfl | rfl <;> decide

theorem tracks_numberOrPool (g : Gap) (ha : ahead <:+ g.before) :
    g.Tracks g.Places ahead fun w => Reader.numberOrPool (g.onward ahead w) := by
  simp only [Reader.numberOrPool_eq]
  refine (g.tracks_digits _ ha).bind ?_ ?_
  · intro n left hleft
    cases left with
    | nil =>
      refine (g.tracks_ok (Expression.number n) _ []).congr ?_
      intro w m hw
      obtain ⟨c, cs, hcs, hdigit⟩ := g.exists_onward_nil hw
      dsimp only
      rw [hcs, Reader.afterNumber_cons, if_neg]
      exact not_or.mpr ⟨ne_of_isDigit hdigit rfl, ne_of_isDigit hdigit rfl⟩
    | cons c left =>
      simp only [onward_cons, Reader.afterNumber_cons]
      split
      · rename_i hc
        split
        · exact g.tracks_error _ _ _
        · exact (g.tracks_pool n (mem_poolLetters hc) (hleft.trans ha)).mono
            (List.suffix_cons c left)
      · exact g.tracks_ok (Expression.number n) _ (c :: left)
  · rintro F rest e rest' ⟨rfl, -, rfl⟩ h
    dsimp only at h ⊢
    rcases hbehind : g.behind with _ | ⟨c, cs⟩
    · rw [hbehind] at h
      obtain ⟨-, rfl⟩ := Prod.mk.inj (Except.ok.inj h)
      exact ⟨_, .number, fun _ _ => rfl⟩
    · rw [hbehind, Reader.afterNumber_cons] at h
      simp only [Reader.afterNumber_cons]
      split at h
      · rename_i hc
        split at h
        · cases h
        · rename_i hmax
          have hpooled : ¬ g.Alone := by
            rintro ⟨-, hne⟩
            exact hne c (by rw [hbehind]; exact ⟨cs, rfl⟩) (mem_poolLetters hc)
          obtain ⟨sides, keep, hpool⟩ := pool_of_count h
          refine ⟨_, .count hpooled sides keep, ?_⟩
          intro n hn
          dsimp only [id] at hmax ⊢
          rw [if_pos hc, if_neg (by omega), hpool n]
      · rename_i hc
        obtain ⟨-, rfl⟩ := Prod.mk.inj (Except.ok.inj h)
        refine ⟨_, .number, ?_⟩
        intro n _
        rw [if_neg hc]
        rfl

/-! ## Chains -/

section Chain

variable {operator : Char → Option Operator} {operand : Reader Expression}

/-- A number that has been passed stays in its place, whatever is joined to it. -/
theorem carries_chainFrom (g : Gap) (hoperand : operand.Advances) :
    g.Carries g.Places g.Places fun left => Reader.chainFrom operator operand left.1 left.2 := by
  intro F cs e rest hF h
  -- by induction on the text, which gets shorter with each operand
  induction hn : cs.length using Nat.strongRecOn generalizing F cs with
  | ind n ih =>
    subst hn
    dsimp only at h ih ⊢
    rw [Reader.chainFrom_eq hoperand] at h
    have hstep : ∀ n, Reader.chainFrom operator operand (F n) cs = _ :=
      fun n => Reader.chainFrom_eq hoperand (F n) cs
    rcases hcs : Text.dropBlank cs with _ | ⟨c, cs'⟩
    · rw [hcs] at h
      obtain ⟨-, rfl⟩ := Prod.mk.inj (Except.ok.inj h)
      exact ⟨F, hF, fun n _ => by rw [hstep, hcs]⟩
    · rw [hcs] at h
      dsimp only at h
      have hshorter := (Reader.suffix_of_dropBlank hcs).2
      cases hop : operator c with
      | none =>
        rw [hop] at h
        obtain ⟨-, rfl⟩ := Prod.mk.inj (Except.ok.inj h)
        exact ⟨F, hF, fun n _ => by simp only [hstep, hcs, hop]⟩
      | some op =>
        rw [hop] at h
        obtain ⟨⟨right, cs''⟩, hright, h⟩ := exists_of_bind_ok h
        have hle := (hoperand hright).length_le
        obtain ⟨G, hG, hrun⟩ := ih cs''.length (by omega) _ cs'' (.left op hF right) h rfl
        refine ⟨G, hG, ?_⟩
        intro n hn
        simp only [hstep, hcs, hop, hright]
        exact hrun n hn

variable (hoperator : ∀ c, c.isDigit = true → operator c = none) (hoperand : operand.Advances)
  (htracks : ∀ ahead, ahead <:+ g.before →
    g.Tracks g.Places ahead fun w => operand (g.onward ahead w))
include hoperator hoperand htracks

theorem tracks_chainFrom (left : Expression) (ha : ahead <:+ g.before) :
    g.Tracks g.Places ahead fun w =>
      Reader.chainFrom operator operand left (g.onward ahead w) := by
  induction hn : ahead.length using Nat.strongRecOn generalizing left ahead with
  | ind n ih =>
    subst hn
    have hsuffix := Reader.dropBlank_suffix ahead
    rcases hcs : Text.dropBlank ahead with _ | ⟨c, cs⟩
    · -- the number itself is no operator
      refine ((g.tracks_ok left _ []).congr ?_).mono List.nil_suffix
      intro w n hw
      obtain ⟨c, cs, hdrop, hstart, hdigit⟩ := g.exists_dropBlank_onward hcs hw
      rw [Reader.chainFrom_eq hoperand, hdrop, hstart]
      simp only [hoperator c hdigit]
    · have hshorter := (Reader.suffix_of_dropBlank hcs).2
      have hafter : cs <:+ ahead := (Reader.suffix_of_dropBlank hcs).1
      cases hop : operator c with
      | none =>
        refine ((g.tracks_ok left _ (c :: cs)).congr ?_).mono (hcs ▸ hsuffix)
        intro w n hw
        rw [Reader.chainFrom_eq hoperand, dropBlank_onward_cons hcs hw]
        simp only [hop, onward_cons]
      | some op =>
        have hchain : g.Tracks g.Places cs fun w => operand (g.onward cs w) >>= fun right =>
            Reader.chainFrom operator operand (.binary op left right.1) right.2 := by
          refine (htracks cs (hafter.trans ha)).bind ?_ ?_
          · intro right next hnext
            have hle := hnext.length_le
            exact ih next.length (by omega) _ ((hnext.trans hafter).trans ha) rfl
          · intro F rest e rest' hF h
            exact g.carries_chainFrom hoperand _ rest e rest' (.right op left hF) h
        refine (hchain.congr ?_).mono hafter
        intro w n hw
        rw [Reader.chainFrom_eq hoperand, dropBlank_onward_cons hcs hw]
        simp only [hop]

theorem tracks_chain (ha : ahead <:+ g.before) :
    g.Tracks g.Places ahead fun w =>
      Reader.chain operator operand (g.onward ahead w) := by
  simp only [Reader.chain_eq]
  refine (htracks ahead ha).bind ?_ (g.carries_chainFrom hoperand)
  intro first left hleft
  exact tracks_chainFrom hoperator hoperand htracks first (hleft.trans ha)

end Chain

theorem tracks_expressionOf {operand : Reader Expression} (hoperand : operand.Advances)
    (htracks : ∀ ahead, ahead <:+ g.before →
      g.Tracks g.Places ahead fun w => operand (g.onward ahead w)) (ha : ahead <:+ g.before) :
    g.Tracks g.Places ahead fun w => Reader.expressionOf operand (g.onward ahead w) := by
  have hproduct : ∀ c, c.isDigit = true → Reader.productOperator c = none := by
    intro c hc
    unfold Reader.productOperator
    split <;> first | rfl | cases hc
  have hsum : ∀ c, c.isDigit = true → Reader.sumOperator c = none := by
    intro c hc
    unfold Reader.sumOperator
    split <;> first | rfl | cases hc
  refine tracks_chain hsum (Reader.chain_advances hoperand) ?_ ha
  intro ahead ha
  exact tracks_chain hproduct hoperand htracks ha

/-! ## Operands -/

theorem tracks_closing (g : Gap) (e : Expression) (ahead : List Char) :
    g.Tracks g.Places ahead fun w => Reader.parenthesized.closing e (g.onward ahead w) := by
  rcases hcs : Text.dropBlank ahead with _ | ⟨c, cs⟩
  · -- the number does not close anything
    refine (g.tracks_error (fun w => .unexpected (g.onward [] w)) _ ahead).congr ?_
    intro w n hw
    obtain ⟨c, cs, hdrop, hstart, hdigit⟩ := g.exists_dropBlank_onward hcs hw
    rw [Reader.closing_cons e hdrop, if_neg (ne_of_isDigit hdigit rfl), hstart]
  · have hafter : cs <:+ ahead := (Reader.suffix_of_dropBlank hcs).1
    refine Tracks.mono (Tracks.congr ?_ fun w n hw =>
      Reader.closing_cons e (dropBlank_onward_cons hcs hw)) hafter
    split
    · exact g.tracks_ok e _ cs
    · exact g.tracks_error _ _ _

theorem tracks_apostrophe (g : Gap) (ahead : List Char) :
    g.Tracks g.Places ahead fun w => Reader.apostrophe (g.onward ahead w) := by
  cases ahead with
  | nil =>
    refine (g.tracks_error (fun w => .unexpected (g.onward [] w)) _ []).congr ?_
    intro w n hw
    obtain ⟨c, cs, hstart, hdigit⟩ := g.exists_onward_nil hw
    rw [hstart, Reader.apostrophe_cons, if_neg (ne_of_isDigit hdigit rfl)]
  | cons c cs =>
    simp only [onward_cons, Reader.apostrophe_cons]
    split
    · exact (g.tracks_ok Expression.empty _ cs).mono (List.suffix_cons c cs)
    · exact g.tracks_error _ _ _

section Operand

variable {inner : Option (Reader Expression)}
  (hinner : ∀ r, inner = some r → r.Advances ∧ ∀ ahead, ahead <:+ g.before →
    g.Tracks g.Places ahead fun w => r (g.onward ahead w))
include hinner

theorem tracks_negation (ha : ahead <:+ g.before) :
    g.Tracks g.Places ahead fun w => Reader.negation inner (g.onward ahead w) := by
  unfold Reader.negation
  cases hin : inner with
  | none => exact g.tracks_error _ _ _
  | some r =>
    refine ((hinner r hin).2 ahead ha).bind ?_ ?_
    · intro e left _
      exact g.tracks_ok (Expression.negate e) _ left
    · intro F rest e rest' hF h
      obtain ⟨-, rfl⟩ := Prod.mk.inj (Except.ok.inj h)
      exact ⟨_, .negate hF, fun _ _ => rfl⟩

theorem tracks_parenthesized (ha : ahead <:+ g.before) :
    g.Tracks g.Places ahead fun w => Reader.parenthesized inner (g.onward ahead w) := by
  unfold Reader.parenthesized
  cases hin : inner with
  | none => exact g.tracks_error _ _ _
  | some r =>
    obtain ⟨hr, htracks⟩ := hinner r hin
    refine (tracks_expressionOf hr htracks ha).bind ?_ ?_
    · intro e left _
      exact g.tracks_closing e left
    · intro F cs e rest hF h
      dsimp only at h ⊢
      rcases hcs : Text.dropBlank cs with _ | ⟨c, cs'⟩
      · simp only [Reader.parenthesized.closing, hcs] at h
        cases h
      · rw [Reader.closing_cons _ hcs] at h
        split at h
        · rename_i hclose
          obtain ⟨-, rfl⟩ := Prod.mk.inj (Except.ok.inj h)
          refine ⟨F, hF, ?_⟩
          intro n _
          rw [Reader.closing_cons _ hcs, if_pos hclose]
        · cases h

theorem tracks_operandOver (ha : ahead <:+ g.before) :
    g.Tracks g.Places ahead fun w => Reader.operandOver inner (g.onward ahead w) := by
  rcases hcs : Text.dropBlank ahead with _ | ⟨c, cs⟩
  · -- the operand starts with the number
    refine ((g.tracks_numberOrPool List.nil_suffix).congr ?_).mono List.nil_suffix
    intro w n hw
    obtain ⟨c, cs, hdrop, hstart, hdigit⟩ := g.exists_dropBlank_onward hcs hw
    rw [Reader.operandOver_cons inner hdrop, hstart]
    have hne : ∀ {c'}, c'.isDigit = false → c ≠ c' := fun hc' => ne_of_isDigit hdigit hc'
    rw [if_neg (hne rfl), if_neg (hne rfl), if_neg (hne rfl),
      if_neg (not_or.mpr ⟨hne rfl, hne rfl⟩)]
  · have hcons : c :: cs <:+ ahead := hcs ▸ Reader.dropBlank_suffix ahead
    have hafter : cs <:+ g.before := ((List.suffix_cons c cs).trans hcons).trans ha
    refine Tracks.mono (Tracks.congr ?_ fun w n hw =>
      Reader.operandOver_cons inner (dropBlank_onward_cons hcs hw)) hcons
    split
    · exact (tracks_negation hinner hafter).mono (List.suffix_cons c cs)
    split
    · exact (tracks_parenthesized hinner hafter).mono (List.suffix_cons c cs)
    split
    · exact (g.tracks_apostrophe cs).mono (List.suffix_cons c cs)
    split
    · rename_i hc
      exact (g.tracks_pool 1 (mem_poolLetters hc) (hcons.trans ha)).mono (List.suffix_cons c cs)
    · exact g.tracks_numberOrPool (hcons.trans ha)

end Operand

theorem tracks_operand (levels : Nat) (ha : ahead <:+ g.before) :
    g.Tracks g.Places ahead fun w => Reader.operand levels (g.onward ahead w) := by
  induction levels generalizing ahead with
  | zero =>
    refine tracks_operandOver ?_ ha
    intro r hr
    cases hr
  | succ levels ih =>
    refine tracks_operandOver ?_ ha
    intro r hr
    obtain rfl := Option.some.inj hr
    exact ⟨Reader.operand_advances levels, fun _ ha => ih ha⟩

/-! ## Whole texts -/

/-- The whole text, with `w` in the gap. -/
def fill (g : Gap) (w : List Char) : List Char := g.onward g.before w

/-- **What a text reads into is a function of the number in the gap**, as far as the number that
is there. -/
theorem exists_place_of_whole {levels : Nat} {e : Expression}
    (h : Reader.whole levels (g.fill g.numeral) = .ok e) :
    ∃ F, Place (¬ g.Alone) F ∧ ∀ w n, Decimal.digits? w = some n → n ≤ g.top →
      Reader.whole levels (g.fill w) = .ok (F n) := by
  obtain ⟨⟨e', rest⟩, hread, h⟩ := exists_of_bind_ok h
  have htracks := tracks_expressionOf (Reader.operand_advances levels)
    (fun ahead ha => tracks_operand (g := g) levels ha) List.suffix_rfl
  cases htracks e' rest hread with
  | stops _ left hleft hrun =>
    -- then the number would be left over
    dsimp only at h
    split at h
    · rename_i hnil
      rw [g.dropBlank_onward left g.numeral_value] at hnil
      have hne := (Decimal.isDigit_of_digits? g.numeral_value).1
      simp [onward, hne] at hnil
    · cases h
  | passes F _ hF hrun =>
    refine ⟨F, hF, ?_⟩
    intro w n hw hn
    have hw' : Reader.expressionOf (Reader.operand levels) (g.fill w) = .ok (F n, rest) :=
      hrun w n hw hn
    rw [Reader.whole, hw']
    dsimp only [bind, Except.bind] at h ⊢
    split at h
    · rfl
    · cases h

end Gap

end RollMenu.Dice
