import Mathlib
import RollMenu.Store.File

/-!
# Files of their own

Each record has a file of its own: an id can be read off its written form, and a message
off its decimal digits, so no two of either have a file name in common. A written id is
its hexadecimal digits with dashes in between; without the dashes the digit at every place
is there, and the digits at all places make up the bits.
-/

namespace RollMenu

namespace ConfigId

variable {id other : ConfigId}

/-- The value of the digit at a place, counted from the right. -/
def nibble (id : ConfigId) (place : Nat) : Nat := id.bits.toNat >>> (4 * place) % 16

theorem nibble_lt (id : ConfigId) (place : Nat) : id.nibble place < 16 :=
  Nat.mod_lt _ (by decide)

theorem digit_eq (id : ConfigId) (place : Nat) :
    id.digit place = Nat.digitChar (id.nibble (31 - place)) := rfl

theorem digitChar_ne_dash : ∀ n < 16, Nat.digitChar n ≠ '-' := by decide

theorem digitChar_inj : ∀ m < 16, ∀ n < 16, Nat.digitChar m = Nat.digitChar n → m = n := by decide

/-- Ids with the same digits are the same. -/
theorem eq_of_nibble_eq (h : ∀ place < 32, id.nibble place = other.nibble place) : id = other := by
  have hbits : id.bits.toNat = other.bits.toNat := by
    refine Nat.eq_of_testBit_eq ?_
    intro i
    by_cases hi : i < 128
    · -- the bit is one of the four of its digit
      have hbit : ∀ n : Nat, n.testBit i = (n >>> (4 * (i / 4)) % 16).testBit (i % 4) := by
        intro n
        have hmod : (16 : Nat) = 2 ^ 4 := rfl
        have hlow : i % 4 < 4 := Nat.mod_lt i (by decide)
        rw [hmod, Nat.testBit_mod_two_pow, Nat.testBit_shiftRight, Nat.div_add_mod]
        simp [hlow]
      have hplace : i / 4 < 32 := by omega
      rw [hbit, hbit]
      exact congrArg (fun n => n.testBit (i % 4)) (h (i / 4) hplace)
    · have hpow : 2 ^ 128 ≤ 2 ^ i := Nat.pow_le_pow_right (by decide) (Nat.le_of_not_lt hi)
      rw [Nat.testBit_lt_two_pow (Nat.lt_of_lt_of_le id.bits.isLt hpow),
        Nat.testBit_lt_two_pow (Nat.lt_of_lt_of_le other.bits.isLt hpow)]
  obtain ⟨bits⟩ := id
  obtain ⟨bits'⟩ := other
  exact congrArg ConfigId.mk (BitVec.eq_of_toNat_eq hbits)

theorem digits_append (id : ConfigId) (first m n : Nat) :
    id.digits first m ++ id.digits (first + m) n = id.digits first (m + n) := by
  rw [digits, digits, digits, List.range_add, List.map_append, List.map_map]
  simp only [Function.comp_def, Nat.add_assoc]

theorem filter_digits (id : ConfigId) (first count : Nat) :
    (id.digits first count).filter (· != '-') = id.digits first count := by
  refine List.filter_eq_self.mpr ?_
  intro c hc
  obtain ⟨i, -, rfl⟩ := List.mem_map.mp hc
  rw [bne_iff_ne, digit_eq]
  exact digitChar_ne_dash _ (id.nibble_lt _)

/-- Without its dashes a written id is its digits. -/
theorem filter_text (id : ConfigId) : id.text.toList.filter (· != '-') = id.digits 0 32 := by
  have hgroups : id.text.toList = id.digits 0 8 ++ '-' :: (id.digits 8 4 ++ '-' ::
      (id.digits 12 4 ++ '-' :: (id.digits 16 4 ++ '-' :: id.digits 20 12))) := by
    simp [text, List.intercalate]
  have hdash : (('-' : Char) != '-') = false := rfl
  rw [hgroups]
  simp only [List.filter_append, List.filter_cons, hdash, filter_digits, Bool.false_eq_true,
    if_false]
  rw [digits_append id 16 4 12, digits_append id 12 4 16, digits_append id 8 4 20,
    digits_append id 0 8 24]

/-- **Different ids are written differently.** -/
theorem text_injective : Function.Injective text := by
  intro id other h
  have hdigits : id.digits 0 32 = other.digits 0 32 := by
    rw [← filter_text, ← filter_text, h]
  refine eq_of_nibble_eq ?_
  intro place hplace
  have hdigit : id.digit (31 - place) = other.digit (31 - place) := by
    have hget := congrArg (fun cs => cs[31 - place]?) hdigits
    have hlt : 31 - place < 32 := by omega
    simpa [digits, hlt] using hget
  rw [digit_eq, digit_eq, Nat.sub_sub_self (by omega)] at hdigit
  exact digitChar_inj _ (id.nibble_lt place) _ (other.nibble_lt place) hdigit

end ConfigId

namespace FileStore

/-- The name of the file of a configuration. -/
def configName (id : ConfigId) : String := id.text ++ ".bin"

/-- The name of the file of the selection on a message. -/
def progressName (message : UInt64) : String := message.toNat.repr ++ ".bin"

/-- **No two configurations share a file.** -/
theorem configName_injective : Function.Injective configName := by
  intro id other h
  exact ConfigId.text_injective ((String.append_left_inj ".bin").mp h)

/-- **No two messages share a file.** -/
theorem progressName_injective : Function.Injective progressName := by
  intro message other h
  have hdigits : message.toNat.repr = other.toNat.repr := (String.append_left_inj ".bin").mp h
  exact UInt64.toNat_inj.mp (Nat.repr_inj.mp hdigits)

end FileStore

end RollMenu
