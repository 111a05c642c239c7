import RollMenu.Dice.Check

/-!
# Numbers in expressions

A number of an expression is a number of its own, or it is one of the numbers of a pool.
`Place` lists the ways in which an expression can depend on one number, and then passing
the check is a question about that number: in a pool the numbers that pass form an
interval, and elsewhere every number passes that is not zero.
-/

namespace RollMenu.Dice

/-- An expression as a function of one of its numbers. The number belongs to a pool only if
`pooled` holds. -/
inductive Place (pooled : Prop) : (Nat → Expression) → Prop where
  | number : Place pooled .number
  | count (h : pooled) (sides : Nat) (keep : Option Keep) :
      Place pooled fun n => .pool { count := n, sides, keep }
  | sides (h : pooled) (count : Nat) (keep : Option Keep) :
      Place pooled fun n => .pool { count, sides := n, keep }
  | keep (h : pooled) (count sides : Nat) (kept : Nat → Keep) (hkept : ∀ n, (kept n).count = n) :
      Place pooled fun n => .pool { count, sides, keep := some (kept n) }
  | negate {F : Nat → Expression} (h : Place pooled F) : Place pooled fun n => .negate (F n)
  | left {F : Nat → Expression} (op : Operator) (h : Place pooled F) (right : Expression) :
      Place pooled fun n => .binary op (F n) right
  | right {F : Nat → Expression} (op : Operator) (left : Expression) (h : Place pooled F) :
      Place pooled fun n => .binary op left (F n)

theorem Pool.check_eq_ok_iff {p : Pool} :
    p.check = .ok () ↔ (1 ≤ p.count ∧ p.count ≤ maxCount) ∧ (1 ≤ p.sides ∧ p.sides ≤ maxSides) ∧
      ∀ keep, p.keep = some keep → 1 ≤ keep.count ∧ keep.count ≤ p.count := by
  unfold check flaw?
  grind

theorem Expression.check_binary_iff {op : Operator} {left right : Expression} :
    (Expression.binary op left right).check = .ok () ↔
      ¬ (op = .divide ∧ right.isLiteralZero = true) ∧ left.check = .ok () ∧
        right.check = .ok () := by
  rw [Expression.check]
  by_cases h : op = .divide ∧ right.isLiteralZero = true
  · rw [if_pos h]
    constructor
    · intro h'
      cases h'
    · rintro ⟨hnot, -⟩
      exact absurd h hnot
  · rw [if_neg h]
    rcases hleft : left.check with e | ⟨⟩
    · constructor
      · intro h'
        cases h'
      · rintro ⟨-, h', -⟩
        cases h'
    · constructor
      · intro h'
        exact ⟨h, rfl, h'⟩
      · rintro ⟨-, -, h'⟩
        exact h'

namespace Place

variable {pooled : Prop} {F : Nat → Expression} {n : Nat}

theorem eq_zero_of_isLiteralZero (hF : Place pooled F) (h : (F n).isLiteralZero = true) :
    n = 0 := by
  induction hF with
  | number => simpa [Expression.isLiteralZero] using h
  | negate _ ih => exact ih h
  | count | sides | keep | left | right => cases h

/-- **The numbers that pass the check.** -/
theorem check_of_le {top : Nat} (hF : Place pooled F) (htop : (F top).check = .ok ())
    (hpos : 0 < n) (hn : n ≤ top)
    (hpooled : pooled → ∃ low, low ≤ n ∧ (F low).check = .ok ()) : (F n).check = .ok () := by
  induction hF with
  | number => rfl
  | count h sides keep =>
    obtain ⟨low, hlow, hcheck⟩ := hpooled h
    simp only [Expression.check, Pool.check_eq_ok_iff] at htop hcheck ⊢
    obtain ⟨⟨_, hmax⟩, hsides, _⟩ := htop
    obtain ⟨_, _, hkeep⟩ := hcheck
    refine ⟨⟨hpos, Nat.le_trans hn hmax⟩, hsides, ?_⟩
    intro k hk
    obtain ⟨hk₁, hk₂⟩ := hkeep k hk
    exact ⟨hk₁, Nat.le_trans hk₂ hlow⟩
  | sides h count keep =>
    simp only [Expression.check, Pool.check_eq_ok_iff] at htop ⊢
    obtain ⟨hcount, ⟨_, hmax⟩, hkeep⟩ := htop
    exact ⟨hcount, ⟨hpos, Nat.le_trans hn hmax⟩, hkeep⟩
  | keep h count sides kept hkept =>
    simp only [Expression.check, Pool.check_eq_ok_iff] at htop ⊢
    obtain ⟨hcount, hsides, hkeep⟩ := htop
    refine ⟨hcount, hsides, ?_⟩
    rintro k hk
    obtain rfl := Option.some.inj hk
    obtain ⟨_, hmax⟩ := hkeep _ rfl
    rw [hkept] at hmax ⊢
    exact ⟨hpos, Nat.le_trans hn hmax⟩
  | negate _ ih => exact ih htop hpooled
  | left op _ right ih =>
    simp only [Expression.check_binary_iff] at htop hpooled ⊢
    obtain ⟨hzero, hleft, hright⟩ := htop
    refine ⟨hzero, ih hleft ?_, hright⟩
    intro hp
    obtain ⟨low, hlow, _, hcheck, _⟩ := hpooled hp
    exact ⟨low, hlow, hcheck⟩
  | right op left hF ih =>
    simp only [Expression.check_binary_iff] at htop hpooled ⊢
    obtain ⟨_, hleft, hright⟩ := htop
    refine ⟨?_, hleft, ih hright ?_⟩
    · rintro ⟨-, hzero⟩
      exact Nat.ne_of_gt hpos (eq_zero_of_isLiteralZero hF hzero)
    · intro hp
      obtain ⟨low, hlow, _, _, hcheck⟩ := hpooled hp
      exact ⟨low, hlow, hcheck⟩

end Place

end RollMenu.Dice
