/-!
# The binary file format

Values are written back to back: numbers in the fewest bytes that hold them, texts and
lists behind their length, choices behind their number. A codec writes a value and reads
it off the front of any bytes that follow, so codecs are put together like the values.
-/

namespace RollMenu

/-- The bytes of a file. -/
abbrev Bytes := List UInt8

/-- A way of writing values and of reading them back off the front of a file. -/
structure Codec (α : Type) where
  write : α → Bytes
  read : Bytes → Option (α × Bytes)

namespace Codec

variable {α β : Type}

/-! ## Numbers -/

/-- A number in so many bytes, the least significant one first. -/
def littleEndian : Nat → Nat → Bytes
  | 0, _ => []
  | width + 1, n => UInt8.ofNat (n % 256) :: littleEndian width (n / 256)

/-- Reads a number of so many bytes. -/
def readLittleEndian : Nat → Bytes → Option (Nat × Bytes)
  | 0, bytes => some (0, bytes)
  | _ + 1, [] => none
  | width + 1, byte :: bytes =>
    (readLittleEndian width bytes).map fun (n, rest) => (byte.toNat + 256 * n, rest)

@[simp] theorem length_littleEndian (width n : Nat) : (littleEndian width n).length = width := by
  induction width generalizing n with
  | zero => rfl
  | succ width ih => simp [littleEndian, ih]

/-- A number that fits into so many bytes reads back, whatever follows it. -/
theorem readLittleEndian_littleEndian {width n : Nat} (rest : Bytes) (h : n < Nat.pow 256 width) :
    readLittleEndian width (littleEndian width n ++ rest) = some (n, rest) := by
  induction width generalizing n with
  | zero => simp_all [readLittleEndian, littleEndian]
  | succ width ih =>
    have hdiv : n / 256 < Nat.pow 256 width := by
      have hpow : Nat.pow 256 (width + 1) = Nat.pow 256 width * 256 := rfl
      omega
    have hbyte : (UInt8.ofNat (n % 256)).toNat = n % 256 := by simp
    simp only [littleEndian, List.cons_append, readLittleEndian, ih hdiv, Option.map_some, hbyte]
    congr 2
    omega

/-- A number below 251 is one byte. A larger one is a mark for its width and two, four or
eight bytes, as few as hold it. -/
def writeNumber (n : Nat) : Bytes :=
  if n < 251 then [UInt8.ofNat n]
  else if n < UInt16.size then 0xfb :: littleEndian 2 n
  else if n < UInt32.size then 0xfc :: littleEndian 4 n
  else 0xfd :: littleEndian 8 n

/-- Reads a number of any width up to `widest` bytes, whether or not it needs that many. -/
def readNumber (widest : Nat) : Bytes → Option (Nat × Bytes)
  | [] => none
  | mark :: bytes =>
    if mark < 251 then some (mark.toNat, bytes)
    else
      let width := if mark = 0xfb then 2 else if mark = 0xfc then 4 else 8
      if mark ≤ 0xfd ∧ width ≤ widest then readLittleEndian width bytes else none

/-- Machine words. -/
def word : Codec UInt64 where
  write n := writeNumber n.toNat
  read bytes := (readNumber 8 bytes).map fun (n, rest) => (UInt64.ofNat n, rest)

/-- Members of a list, written as their places in it. -/
def oneOf [BEq α] (all : List α) : Codec α where
  write a := writeNumber (all.idxOf a)
  read bytes := do
    let (i, rest) ← readNumber 4 bytes
    return (← all[i]?, rest)

/-! ## Texts, options and lists -/

/-- Texts in UTF-8 behind the number of their bytes. -/
def text : Codec String where
  write s := writeNumber s.utf8ByteSize ++ s.toByteArray.data.toList
  read bytes := do
    let (size, rest) ← readNumber 8 bytes
    if rest.length < size then none
    else return (← String.fromUTF8? ⟨(rest.take size).toArray⟩, rest.drop size)

/-- Values that may be missing, behind a byte that says so. -/
def optional (c : Codec α) : Codec (Option α) where
  write
    | none => [0]
    | some a => 1 :: c.write a
  read
    | 0 :: bytes => some (none, bytes)
    | 1 :: bytes => (c.read bytes).map fun (a, rest) => (some a, rest)
    | _ => none

/-- Reads so many values. -/
def readMany (c : Codec α) : Nat → Bytes → Option (List α × Bytes)
  | 0, bytes => some ([], bytes)
  | count + 1, bytes => do
    let (first, rest) ← c.read bytes
    let (more, rest) ← readMany c count rest
    return (first :: more, rest)

/-- Lists behind the number of their elements. -/
def list (c : Codec α) : Codec (List α) where
  write xs := writeNumber xs.length ++ xs.flatMap c.write
  read bytes := do
    let (count, rest) ← readNumber 8 bytes
    readMany c count rest

/-! ## Records -/

/-- One value behind another. -/
def pair (c : Codec α) (d : Codec β) : Codec (α × β) where
  write v := c.write v.1 ++ d.write v.2
  read bytes := do
    let (a, rest) ← c.read bytes
    let (b, rest) ← d.read rest
    return ((a, b), rest)

/-- The values of another type, written as what they are made of. -/
def convert (c : Codec α) (parts : β → α) (make : α → β) : Codec β where
  write v := c.write (parts v)
  read bytes := (c.read bytes).map fun (a, rest) => (make a, rest)

end Codec

end RollMenu
