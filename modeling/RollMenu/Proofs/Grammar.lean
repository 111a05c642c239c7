import RollMenu.Dice.Reader

/-!
# The grammar of dice expressions

Which texts stand for which expression, said by how a text is put together and not by how
it is read:

* an expression is a term, or an expression, `+` or `-`, and a term,
* a term is an operand, or a term, `*` or `/`, and an operand,
* an operand is a minus and an operand, or it is primary,
* primary are pools, numbers, two apostrophes, and expressions in parentheses.

So operators of one strength associate to the left. Blanks may stand before an operand, an
operator and a closing parenthesis and at the end of the text, but not inside a number, a
pool or the apostrophes.

Every derivation has a number of `levels`, and nothing in it stands under more minus signs
and parentheses than that.
-/

namespace RollMenu.Dice

/-! ## Numbers and pools -/

/-- A run of digits and its value, which is at most `max`. -/
structure IsNumber (max : Nat) (w : List Char) (n : Nat) : Prop where
  value : Decimal.digits? w = some n
  le_max : n ≤ max

/-- What stands in front of the `d` of a pool. -/
inductive IsCount : List Char → Nat → Prop where
  /-- A count that is not written is 1. -/
  | missing : IsCount [] 1
  | written {w : List Char} {n : Nat} (h : IsNumber Reader.maxInPool w n) : IsCount w n

/-- What stands behind the sides of a pool. -/
inductive IsKeep : List Char → Option Keep → Prop where
  | missing : IsKeep [] none
  | highest {c : Char} {w : List Char} {n : Nat} (hc : c = 'k' ∨ c = 'K')
      (h : IsNumber Reader.maxInPool w n) : IsKeep (c :: w) (some (.highest n))
  | lowest {c : Char} {w : List Char} {n : Nat} (hc : c = 'l' ∨ c = 'L')
      (h : IsNumber Reader.maxInPool w n) : IsKeep (c :: w) (some (.lowest n))

/-- A pool, from its count to what is kept of it. -/
inductive IsPool : List Char → Pool → Prop where
  | intro {u v w : List Char} {d : Char} {count sides : Nat} {keep : Option Keep}
      (hcount : IsCount u count) (hd : d = 'd' ∨ d = 'D')
      (hsides : IsNumber Reader.maxInPool v sides) (hkeep : IsKeep w keep) :
      IsPool (u ++ d :: (v ++ w)) { count, sides, keep }

/-! ## Expressions -/

/-- The parts of speech of the grammar. -/
inductive Category where
  | expression
  | term
  | operand
  | primary
  deriving DecidableEq, Repr

/-- The text derives the expression in this category, with so many levels of nesting at most. -/
inductive Derives : Category → Nat → List Char → Expression → Prop where
  | ofTerm {levels : Nat} {w : List Char} {e : Expression} (h : Derives .term levels w e) :
      Derives .expression levels w e
  | sum {levels : Nat} {l b r : List Char} {op : Operator} {x y : Expression}
      (hop : op = .plus ∨ op = .minus) (hl : Derives .expression levels l x)
      (hb : Text.Blank b) (hr : Derives .term levels r y) :
      Derives .expression levels (l ++ (b ++ op.symbol :: r)) (.binary op x y)
  | ofOperand {levels : Nat} {w : List Char} {e : Expression} (h : Derives .operand levels w e) :
      Derives .term levels w e
  | product {levels : Nat} {l b r : List Char} {op : Operator} {x y : Expression}
      (hop : op = .times ∨ op = .divide) (hl : Derives .term levels l x)
      (hb : Text.Blank b) (hr : Derives .operand levels r y) :
      Derives .term levels (l ++ (b ++ op.symbol :: r)) (.binary op x y)
  | ofPrimary {levels : Nat} {w : List Char} {e : Expression} (h : Derives .primary levels w e) :
      Derives .operand levels w e
  | negation {levels : Nat} {b w : List Char} {e : Expression} (hb : Text.Blank b)
      (h : Derives .operand levels w e) :
      Derives .operand (levels + 1) (b ++ '-' :: w) (.negate e)
  | pool {levels : Nat} {b w : List Char} {p : Pool} (hb : Text.Blank b) (h : IsPool w p) :
      Derives .primary levels (b ++ w) (.pool p)
  | number {levels : Nat} {b w : List Char} {n : Nat} (hb : Text.Blank b)
      (h : IsNumber Reader.maxNumber w n) : Derives .primary levels (b ++ w) (.number n)
  | apostrophes {levels : Nat} {b : List Char} (hb : Text.Blank b) :
      Derives .primary levels (b ++ ['\'', '\'']) .empty
  | parentheses {levels : Nat} {b w b' : List Char} {e : Expression} (hb : Text.Blank b)
      (h : Derives .expression levels w e) (hb' : Text.Blank b') :
      Derives .primary (levels + 1) (b ++ '(' :: (w ++ (b' ++ [')']))) e

/-- The whole text derives the expression, within the nesting that is allowed. -/
def Denotes (source : String) (e : Expression) : Prop :=
  ∃ w b, source.toList = w ++ b ∧ Text.Blank b ∧ Derives .expression maxNesting w e

namespace Derives

variable {c : Category} {levels levels' : Nat} {w : List Char} {e : Expression}

/-- More nesting may be allowed than there is. -/
theorem mono (h : Derives c levels w e) (hle : levels ≤ levels') : Derives c levels' w e := by
  induction h generalizing levels' with
  | ofTerm _ ih => exact .ofTerm (ih hle)
  | sum hop _ hb _ ihl ihr => exact .sum hop (ihl hle) hb (ihr hle)
  | ofOperand _ ih => exact .ofOperand (ih hle)
  | product hop _ hb _ ihl ihr => exact .product hop (ihl hle) hb (ihr hle)
  | ofPrimary _ ih => exact .ofPrimary (ih hle)
  | negation hb _ ih =>
    obtain ⟨k, rfl⟩ := Nat.exists_eq_add_one.mpr (Nat.lt_of_lt_of_le (Nat.succ_pos _) hle)
    exact .negation hb (ih (Nat.le_of_succ_le_succ hle))
  | pool hb h => exact .pool hb h
  | number hb h => exact .number hb h
  | apostrophes hb => exact .apostrophes hb
  | parentheses hb _ hb' ih =>
    obtain ⟨k, rfl⟩ := Nat.exists_eq_add_one.mpr (Nat.lt_of_lt_of_le (Nat.succ_pos _) hle)
    exact .parentheses hb (ih (Nat.le_of_succ_le_succ hle)) hb'

/-- Blanks may be put in front. -/
theorem blank_append {a : List Char} (h : Derives c levels w e) (ha : Text.Blank a) :
    Derives c levels (a ++ w) e := by
  induction h with
  | ofTerm _ ih => exact .ofTerm ih
  | sum hop _ hb hr ihl _ =>
    rw [← List.append_assoc]
    exact .sum hop ihl hb hr
  | ofOperand _ ih => exact .ofOperand ih
  | product hop _ hb hr ihl _ =>
    rw [← List.append_assoc]
    exact .product hop ihl hb hr
  | ofPrimary _ ih => exact .ofPrimary ih
  | negation hb h _ =>
    rw [← List.append_assoc]
    exact .negation (List.forall_mem_append.mpr ⟨ha, hb⟩) h
  | pool hb h =>
    rw [← List.append_assoc]
    exact .pool (List.forall_mem_append.mpr ⟨ha, hb⟩) h
  | number hb h =>
    rw [← List.append_assoc]
    exact .number (List.forall_mem_append.mpr ⟨ha, hb⟩) h
  | apostrophes hb =>
    rw [← List.append_assoc]
    exact .apostrophes (List.forall_mem_append.mpr ⟨ha, hb⟩)
  | parentheses hb h hb' _ =>
    rw [← List.append_assoc]
    exact .parentheses (List.forall_mem_append.mpr ⟨ha, hb⟩) h hb'

end Derives

end RollMenu.Dice
