import Mathlib
import RollMenu.Proofs.EvaluatorMemory
import RollMenu.Proofs.NumberPlaces

/-!
# Checking and rolling

The check goes through an expression in another order than rolling does, and it knows no
faces. Still the two agree. An expression with a problem never rolls: pools out of bounds
are refused again when they are rolled, and a divisor that is plainly zero rolls to zero,
unless rolling has stopped before it. And when an expression without a problem does not
roll, it is the arithmetic that fails.
-/

namespace RollMenu

/-- The error of an arithmetic step. All others can be told without rolling. -/
def RollError.OfArithmetic (source : String) (error : RollError) : Prop :=
  error = .overflow source ∨ error = .divisionByZero source

namespace Dice

variable {σ : Type} {face : FaceSource σ} {source : String} {tray tray' : Tray σ} {v : Int}
  {error : RollError} {e : Expression}

/-! ## Single steps -/

namespace Pool

variable {p : Pool}

theorem check_of_roll (h : p.roll face tray = (.ok v, tray')) : p.check = .ok () := by
  unfold roll at h
  split at h
  · cases h
  · assumption

theorem exists_roll_of_check (face : FaceSource σ) (tray : Tray σ) (h : p.check = .ok ()) :
    ∃ v tray', p.roll face tray = (.ok v, tray') := by
  unfold roll
  rw [h]
  exact ⟨_, _, rfl⟩

end Pool

namespace Operator

variable {op : Operator} {a b : Int}

theorem ofArithmetic_of_apply (h : op.apply source a b = .error error) :
    error.OfArithmetic source := by
  unfold apply at h
  split at h
  · exact Or.inr (Except.error.inj h).symm
  · split at h
    · cases h
    · exact Or.inl (Except.error.inj h).symm

theorem ne_zero_of_apply (h : divide.apply source a b = .ok v) : b ≠ 0 := by
  rintro rfl
  rw [apply, if_pos ⟨rfl, rfl⟩] at h
  cases h

end Operator

namespace Expression

/-- A negation rolls what it negates, and then only the arithmetic can fail. -/
theorem roll_negate_cases (face : FaceSource σ) (source : String) (e : Expression)
    (tray : Tray σ) :
    (∃ error tray', e.roll face source tray = (.error error, tray') ∧
      (negate e).roll face source tray = (.error error, tray')) ∨
    (∃ v tray', e.roll face source tray = (.ok v, tray') ∧
      ((negate e).roll face source tray = (.ok (-v), tray') ∨
        (negate e).roll face source tray = (.error (.overflow source), tray'))) := by
  rcases hroll : e.roll face source tray with ⟨error | v, tray'⟩
  · refine Or.inl ⟨error, tray', rfl, ?_⟩
    simp only [roll, hroll]
  · refine Or.inr ⟨v, tray', rfl, ?_⟩
    simp only [roll, hroll, Decimal.checked]
    by_cases hfits : Decimal.Fits (-v)
    · exact Or.inl (by rw [if_pos hfits])
    · exact Or.inr (by rw [if_neg hfits])

/-- An operation rolls its operands from the left, up to the first that fails. -/
theorem roll_binary_cases (face : FaceSource σ) (source : String) (op : Operator)
    (left right : Expression) (tray : Tray σ) :
    (∃ error tray', left.roll face source tray = (.error error, tray') ∧
      (binary op left right).roll face source tray = (.error error, tray')) ∨
    (∃ a between error tray', left.roll face source tray = (.ok a, between) ∧
      right.roll face source between = (.error error, tray') ∧
      (binary op left right).roll face source tray = (.error error, tray')) ∨
    (∃ a between b tray', left.roll face source tray = (.ok a, between) ∧
      right.roll face source between = (.ok b, tray') ∧
      (binary op left right).roll face source tray = (op.apply source a b, tray')) := by
  rcases hleft : left.roll face source tray with ⟨error | a, between⟩
  · refine Or.inl ⟨error, between, rfl, ?_⟩
    simp only [roll, hleft]
  rcases hright : right.roll face source between with ⟨error | b, tray'⟩
  · refine Or.inr (Or.inl ⟨a, between, error, tray', rfl, hright, ?_⟩)
    simp only [roll, hleft, hright]
  · refine Or.inr (Or.inr ⟨a, between, b, tray', rfl, hright, ?_⟩)
    simp only [roll, hleft, hright]

/-! ## Whole expressions -/

/-- **What is plainly zero rolls to zero**, and without a die. -/
theorem roll_of_isLiteralZero (h : e.isLiteralZero = true) :
    e.roll face source tray = (.ok 0, tray) := by
  induction e with
  | number n =>
    obtain rfl : n = 0 := by simpa [isLiteralZero] using h
    rfl
  | empty => rfl
  | negate e ih =>
    simp only [roll, ih h]
    rfl
  | pool | binary => cases h

/-- **What rolls passes the check.** -/
theorem check_of_roll (h : e.roll face source tray = (.ok v, tray')) : e.check = .ok () := by
  induction e generalizing tray tray' v with
  | number | empty => rfl
  | pool p => exact p.check_of_roll h
  | negate e ih =>
    obtain ⟨error, stop, -, hfail⟩ | ⟨w, stop, hinner, -⟩ := roll_negate_cases face source e tray
    · rw [hfail] at h
      cases h
    · exact ih hinner
  | binary op left right ihleft ihright =>
    obtain ⟨error, stop, -, hfail⟩ | ⟨a, between, error, stop, -, -, hfail⟩ |
      ⟨a, between, b, stop, hleft, hright, happly⟩ :=
        roll_binary_cases face source op left right tray
    · rw [hfail] at h
      cases h
    · rw [hfail] at h
      cases h
    · refine check_binary_iff.mpr ⟨?_, ihleft hleft, ihright hright⟩
      -- a divisor that is plainly zero has rolled to zero, and then there is no quotient
      rintro ⟨rfl, hzero⟩
      rw [happly] at h
      rw [roll_of_isLiteralZero hzero] at hright
      obtain rfl := Except.ok.inj (Prod.mk.inj hright).1
      exact Operator.ne_zero_of_apply (Prod.mk.inj h).1 rfl

/-- **When a checked expression does not roll, it is the arithmetic that fails.** -/
theorem ofArithmetic_of_roll (hcheck : e.check = .ok ())
    (h : e.roll face source tray = (.error error, tray')) : error.OfArithmetic source := by
  induction e generalizing tray tray' error with
  | number | empty => cases h
  | pool p =>
    obtain ⟨v, stop, hroll⟩ := p.exists_roll_of_check face tray hcheck
    rw [roll, hroll] at h
    cases h
  | negate e ih =>
    obtain ⟨error', stop, hinner, hfail⟩ | ⟨w, stop, -, hok | hover⟩ :=
      roll_negate_cases face source e tray
    · rw [hfail] at h
      obtain rfl := Except.error.inj (Prod.mk.inj h).1
      exact ih hcheck hinner
    · rw [hok] at h
      cases h
    · rw [hover] at h
      exact Or.inl (Except.error.inj (Prod.mk.inj h).1).symm
  | binary op left right ihleft ihright =>
    -- a check that passes has gone through both operands
    obtain ⟨-, hcheckleft, hcheckright⟩ := check_binary_iff.mp hcheck
    obtain ⟨error', stop, hleft, hfail⟩ | ⟨a, between, error', stop, -, hright, hfail⟩ |
      ⟨a, between, b, stop, -, -, happly⟩ :=
        roll_binary_cases face source op left right tray
    · rw [hfail] at h
      obtain rfl := Except.error.inj (Prod.mk.inj h).1
      exact ihleft hcheckleft hleft
    · rw [hfail] at h
      obtain rfl := Except.error.inj (Prod.mk.inj h).1
      exact ihright hcheckright hright
    · rw [happly] at h
      exact Operator.ofArithmetic_of_apply (Prod.mk.inj h).1

end Expression

/-! ## Texts -/

variable {s : σ} {result : RollResult} {message : String}

theorem exists_of_result_ok {s' : σ} (h : e.result face source s = (.ok result, s')) :
    ∃ v tray', e.roll face source { source := s } = (.ok v, tray') := by
  unfold Expression.result at h
  split at h
  · cases h
  · exact ⟨_, _, by assumption⟩

theorem exists_of_result_error {s' : σ} (h : e.result face source s = (.error error, s')) :
    ∃ tray', e.roll face source { source := s } = (.error error, tray') := by
  unfold Expression.result at h
  split at h
  · rename_i hroll
    obtain rfl := Except.error.inj (Prod.mk.inj h).1
    exact ⟨_, hroll⟩
  · cases h

/-- A text has no complaint if it reads and passes the check. -/
theorem exists_of_complaint_eq_none (h : complaint source = none) :
    ∃ e, parse source = .ok e ∧ e.check = .ok () := by
  unfold complaint at h
  split at h
  · cases h
  · rename_i e hparse
    split at h
    · cases h
    · exact ⟨e, hparse, by assumption⟩

/-- A text with a complaint does not roll. -/
theorem complaint_eq_none_of_roll (h : (roll face source s).1 = .ok result) :
    complaint source = none := by
  unfold roll at h
  split at h
  · cases h
  · rename_i e hparse
    obtain ⟨v, tray', hroll⟩ := exists_of_result_ok (Prod.ext h rfl)
    simp only [complaint, hparse, Expression.check_of_roll hroll]

/-- A text without one fails in the arithmetic, if it does. -/
theorem ofArithmetic_of_roll (hcomplaint : complaint source = none)
    (h : (roll face source s).1 = .error error) : error.OfArithmetic source := by
  obtain ⟨e, hparse, hcheck⟩ := exists_of_complaint_eq_none hcomplaint
  simp only [roll, hparse] at h
  obtain ⟨tray', hroll⟩ := exists_of_result_error (Prod.ext h rfl)
  exact Expression.ofArithmetic_of_roll hcheck hroll

namespace Evaluator

/--
**Checking and rolling agree**, whatever the dice show and whatever the evaluators have
been asked before. Rolling a text with a complaint is an error. Rolling one without is a
result, or a step of its arithmetic fails.
-/
theorem roll_agrees_with_complaint {ev other : Evaluator} (hev : ev.Used) (hother : other.Used)
    (face : FaceSource σ) (source : String) (s : σ) :
    (∀ message, (ev.complaint source).1 = some message →
      ∃ error, (other.roll face source s).1.1 = .error error) ∧
    ((ev.complaint source).1 = none →
      (∃ result, (other.roll face source s).1.1 = .ok result) ∨
      (other.roll face source s).1.1 = .error (.overflow source) ∨
      (other.roll face source s).1.1 = .error (.divisionByZero source)) := by
  rw [hev.complaint_eq, hother.roll_eq]
  rcases hroll : (Dice.roll face source s).1 with error | result
  · refine ⟨fun _ _ => ⟨error, rfl⟩, ?_⟩
    intro hnone
    rcases ofArithmetic_of_roll hnone hroll with rfl | rfl
    · exact Or.inr (Or.inl rfl)
    · exact Or.inr (Or.inr rfl)
  · rw [complaint_eq_none_of_roll hroll]
    exact ⟨fun _ h => (by cases h), fun _ => Or.inl ⟨result, rfl⟩⟩

/-- A divisor that is plainly zero is reported although rolling ends before it, and one that
only comes out as zero is not reported. With another divisor the same pool has a result. -/
theorem roll_agrees_with_complaint_zero_divisors :
    let asked := ((empty 1).complaint "4 / -''").2
    let rolled := (asked.roll Words.face "2d6k1" { words := #[7, 1] }).2
    asked.Used ∧ rolled.Used ∧
      (asked.complaint "1 / (2 - 2) + 4 / -''").1 =
        some (RollError.divisionByZero "4 / -''").message ∧
      (∃ error, (rolled.roll Words.face "1 / (2 - 2) + 4 / -''" default).1.1 = .error error) ∧
      (rolled.complaint "1d4 / (2 - 2)").1 = none ∧
      (asked.roll Words.face "1d4 / (2 - 2)" default).1.1 =
        .error (.divisionByZero "1d4 / (2 - 2)") ∧
      (rolled.complaint "1d4 / (3 - 2)").1 = none ∧
      (asked.roll Words.face "1d4 / (3 - 2)" { words := #[0x80000000] }).1.1 =
        .ok { total := 3, details := "1d4 / (3 - 2): 1d4 [3] = 3" } := by
  intro asked rolled
  have hasked : asked.Used := (Used.empty 1).complaint _
  have hrolled : rolled.Used := hasked.roll _ _ _
  have hreported : (asked.complaint "1 / (2 - 2) + 4 / -''").1 =
      some (RollError.divisionByZero "4 / -''").message := by
    have hparse : parse "1 / (2 - 2) + 4 / -''" = .ok (.binary .plus
        (.binary .divide (.number 1) (.binary .minus (.number 2) (.number 2)))
        (.binary .divide (.number 4) (.negate .empty))) := by cbv
    have htext : (Expression.binary .divide (.number 4) (.negate .empty)).text = "4 / -''" := by cbv
    rw [hasked.complaint_eq, Dice.complaint, hparse, ← htext]
    rfl
  have hnone : (rolled.complaint "1d4 / (2 - 2)").1 = none :=
    (hrolled.complaint_eq _).trans (by cbv)
  have hfails : (Dice.roll Words.face "1d4 / (2 - 2)" default).1 =
      .error (.divisionByZero "1d4 / (2 - 2)") := by cbv
  have hrolls : (Dice.roll Words.face "1d4 / (3 - 2)" { words := #[0x80000000] }).1 =
      .ok { total := 3, details := "1d4 / (3 - 2): 1d4 [3] = 3" } := by cbv
  rw [← hasked.roll_eq] at hfails hrolls
  refine ⟨hasked, hrolled, hreported, ?_, hnone, hfails, ?_, hrolls⟩
  · exact (roll_agrees_with_complaint hasked hrolled Words.face _ _).1 _ hreported
  · -- what has a result is not reported
    rcases hcomplaint : (rolled.complaint "1d4 / (3 - 2)").1 with _ | message
    · rfl
    · obtain ⟨error, herror⟩ :=
        (roll_agrees_with_complaint hrolled hasked Words.face _ _).1 message hcomplaint
      rw [hrolls] at herror
      cases herror

end Evaluator

end Dice

end RollMenu
