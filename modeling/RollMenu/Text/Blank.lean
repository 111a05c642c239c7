/-!
# White space

Which characters count as blank, and what is left of a text once the blanks at its
ends are gone. Names, bounds and values are all judged after trimming, so this table
decides which placeholders are empty and which values are integers.
-/

namespace RollMenu.Text

/-- The code point ranges with the Unicode property `White_Space`, both ends included. -/
def blankRanges : List (Nat × Nat) :=
  [(0x09, 0x0D), (0x20, 0x20), (0x85, 0x85), (0xA0, 0xA0), (0x1680, 0x1680), (0x2000, 0x200A),
   (0x2028, 0x2029), (0x202F, 0x202F), (0x205F, 0x205F), (0x3000, 0x3000)]

/-- A character is blank when its code point lies in one of `blankRanges`. -/
def isBlank (c : Char) : Bool :=
  blankRanges.any fun range => range.1 ≤ c.toNat && c.toNat ≤ range.2

/-- The text from its first character that is not blank. -/
def dropBlank (cs : List Char) : List Char := cs.dropWhile isBlank

/-- The text without the blanks at either end. -/
def trim (cs : List Char) : List Char := (dropBlank (dropBlank cs).reverse).reverse

/-- A text is blank when every character of it is. -/
def Blank (cs : List Char) : Prop := ∀ c ∈ cs, isBlank c = true

/-- Decided by going through the text, and not through all characters that there are. -/
instance (priority := high) (cs : List Char) : Decidable (∀ c ∈ cs, isBlank c = true) :=
  List.decidableBAll _ cs

instance (cs : List Char) : Decidable (Blank cs) :=
  inferInstanceAs (Decidable (∀ c ∈ cs, isBlank c = true))

/-- Number of bytes of a text in UTF-8, the unit in which template positions are counted. -/
def byteLength (cs : List Char) : Nat := cs.foldr (fun c n => c.utf8Size + n) 0

@[simp] theorem byteLength_nil : byteLength [] = 0 := rfl

@[simp] theorem byteLength_cons (c : Char) (cs : List Char) :
    byteLength (c :: cs) = c.utf8Size + byteLength cs := rfl

@[simp] theorem byteLength_append (cs ds : List Char) :
    byteLength (cs ++ ds) = byteLength cs + byteLength ds := by
  induction cs with
  | nil => simp
  | cons c cs ih => simp [ih, Nat.add_assoc]

/-- Nothing is left of a text exactly when it is blank. -/
theorem dropBlank_eq_nil_iff {cs : List Char} : dropBlank cs = [] ↔ Blank cs := by
  induction cs with
  | nil => simp [dropBlank, Blank]
  | cons c cs ih =>
    cases h : isBlank c with
    | true =>
      have hstep : dropBlank (c :: cs) = dropBlank cs := by
        simp only [dropBlank, List.dropWhile_cons, h, if_true]
      rw [hstep, ih]
      simp [Blank, h]
    | false => simp [dropBlank, Blank, h]

end RollMenu.Text
