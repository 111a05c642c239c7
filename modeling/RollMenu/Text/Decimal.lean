/-!
# Decimal numerals

Numbers are written without sign or padding (`-` in front of a negative one) and read
more generously: one optional sign, then at least one ASCII digit, any number of
leading zeros. What is read has to fit into 64 bits, which is where every number of a
template, a wire id or a command line ends up.
-/

namespace RollMenu.Decimal

/-- Everything an unsigned machine word can hold is below this. -/
def wordBound : Nat := UInt64.size

/-- The least signed 64-bit integer. -/
def least : Int := -0x8000000000000000

/-- The greatest signed 64-bit integer. -/
def greatest : Int := 0x7fffffffffffffff

/-- Whether an integer fits into 64 signed bits. -/
def Fits (i : Int) : Prop := least ≤ i ∧ i ≤ greatest

instance (i : Int) : Decidable (Fits i) := inferInstanceAs (Decidable (_ ∧ _))

/-- The integer itself if it fits, and nothing on overflow. -/
def checked (i : Int) : Option Int := if Fits i then some i else none

/-- The nearest integer that fits. -/
def saturated (i : Int) : Int := max least (min greatest i)

/-- Reads the value of a run of ASCII digits. An empty run is no numeral. -/
def digits? (cs : List Char) : Option Nat :=
  if cs.isEmpty then none
  else if cs.all Char.isDigit then some (Nat.ofDigitChars 10 cs 0)
  else none

/-- Reads an unsigned 64-bit number. A plus sign may stand in front, a minus sign may not. -/
def word? (cs : List Char) : Option UInt64 :=
  let value := match cs with
    | '+' :: rest => digits? rest
    | _ => digits? cs
  value.bind fun n => if n < wordBound then some (UInt64.ofNat n) else none

/-- Reads a signed 64-bit number. -/
def integer? (cs : List Char) : Option Int :=
  match cs with
  | '+' :: rest => (digits? rest).bind fun n => checked n
  | '-' :: rest => (digits? rest).bind fun n => checked (-n)
  | _ => (digits? cs).bind fun n => checked n

/-- Writes an integer in the fewest characters. -/
def ofInt : Int → String
  | .ofNat n => n.repr
  | .negSucc n => "-" ++ (n + 1).repr

/-- Writes a word in the fewest characters. -/
def ofWord (n : UInt64) : String := n.toNat.repr

/-! ## Reading what was written -/

theorem toDigits_ne_nil (n : Nat) : Nat.toDigits 10 n ≠ [] := by
  intro h
  have hpos := @Nat.length_toDigits_pos 10 n
  rw [h] at hpos
  exact Nat.lt_irrefl 0 hpos

theorem all_isDigit_toDigits (n : Nat) : (Nat.toDigits 10 n).all Char.isDigit = true := by
  simp only [List.all_eq_true]
  intro c hc
  exact Nat.isDigit_of_mem_toDigits (b := 10) (by decide) (by decide) hc

/-- The digits of a number read back as that number. -/
theorem digits?_toDigits (n : Nat) : digits? (Nat.toDigits 10 n) = some n := by
  have hne : (Nat.toDigits 10 n).isEmpty = false := by
    rw [Bool.eq_false_iff, ne_eq, List.isEmpty_iff]
    exact toDigits_ne_nil n
  simp only [digits?, hne, all_isDigit_toDigits n, Bool.false_eq_true, if_false, if_true,
    Nat.ofDigitChars_toDigits (by decide : 1 < 10) (by decide : 10 ≤ 10)]

end RollMenu.Decimal
