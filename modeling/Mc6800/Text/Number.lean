import Mc6800.Text.Basic
import Mc6800.Word

/-!
# Numbers in text

Reading digits of base ten or sixteen, and writing decimal numbers and hexadecimal bytes and words.
Only ASCII digits count. A byte is always written with two digits and a word with four.
-/

set_option autoImplicit false

namespace Mc6800.Text

/-! ## Reading -/

/-- The base of a numeral. -/
inductive Radix where
  | decimal
  | hexadecimal
  deriving DecidableEq, Repr

/-- The number of digits of the base. -/
def Radix.base : Radix → Nat
  | .decimal => 10
  | .hexadecimal => 16

/-- The value of a digit: `0` to `9`, and for base sixteen also `a` to `f` and `A` to `F`. -/
def Radix.digit? (radix : Radix) (c : Char) : Option Nat :=
  if '0' ≤ c ∧ c ≤ '9' then some (c.toNat - '0'.toNat)
  else
    match radix with
    | .decimal => none
    | .hexadecimal =>
      if 'a' ≤ c ∧ c ≤ 'f' then some (c.toNat - 'a'.toNat + 10)
      else if 'A' ≤ c ∧ c ≤ 'F' then some (c.toNat - 'A'.toNat + 10)
      else none

/-- The value of a text of digits read on from `start`; none if some character is no digit. -/
def readDigitsFrom (radix : Radix) (start : Nat) : Text → Option Nat
  | [] => some start
  | c :: rest =>
    match radix.digit? c with
    | none => none
    | some d => readDigitsFrom radix (start * radix.base + d) rest

/-- The value of a numeral: one or more digits and nothing else. -/
def readDigits? (radix : Radix) (t : Text) : Option Nat :=
  if t.isEmpty then none else readDigitsFrom radix 0 t

/-- Every count is below this bound, which is two to the power of 64. -/
def countBound : Nat := 0x10000000000000000

/-- A count of at most 64 bits: decimal digits behind at most one plus sign. -/
def readCount? (t : Text) : Option Nat :=
  match readDigits? .decimal (dropMarker '+' t) with
  | none => none
  | some n => if n < countBound then some n else none

/-! ## Writing -/

/-- The decimal digits of a number. -/
def ofNat (n : Nat) : Text := Nat.toDigits 10 n

/-- The decimal digits of a number, behind a minus sign if it is negative. -/
def ofInt (v : Int) : Text := if v < 0 then '-' :: ofNat v.natAbs else ofNat v.natAbs

/-- The digit of base sixteen with this value, in upper case. -/
def hexDigit (n : Nat) : Char := if n < 10 then Char.ofNat (48 + n) else Char.ofNat (55 + n)

/-- Two digits of base sixteen. -/
def ofByte (b : Byte) : Text := [hexDigit (b.toNat / 16), hexDigit (b.toNat % 16)]

/-- Four digits of base sixteen. -/
def ofWord (w : Word) : Text := ofByte (Word.high w) ++ ofByte (Word.low w)

/-- Bytes as pairs of digits with one space between them. -/
def ofBytes (bs : List Byte) : Text := [' '].intercalate (bs.map ofByte)

/-- The byte that a text of one or two digits of base sixteen stands for. -/
def readByte? (t : Text) : Option Byte :=
  if t.length ≤ 2 then (readDigits? .hexadecimal t).map UInt8.ofNat else none

theorem readByte?_ofByte (b : Byte) : readByte? (ofByte b) = some b := by
  have h : ∀ n : Fin 256, readByte? (ofByte (UInt8.ofNat n.val)) = some (UInt8.ofNat n.val) := by
    decide +kernel
  have hb := h ⟨b.toNat, b.toNat_lt⟩
  simpa using hb

@[simp] theorem length_ofByte (b : Byte) : (ofByte b).length = 2 := rfl

@[simp] theorem length_ofWord (w : Word) : (ofWord w).length = 4 := rfl

end Mc6800.Text
