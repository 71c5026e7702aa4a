import Mc6800.Text.Blank
import Mc6800.Text.Number

/-!
# Numeric literals

A literal is an optional immediate marker `#`, an optional minus sign, an optional hexadecimal
marker (`$`, `0x` or `0X`) and one or more digits. Its magnitude has at most 31 bits, so its
negation always exists.
-/

set_option autoImplicit false

namespace Mc6800.Literal

/-- The character in front of an immediate operand. -/
def immediateMarker : Char := '#'

/-- Why a text is not a literal. -/
inductive Fault where
  /-- Its form is not that of a literal. -/
  | malformed
  /-- Its magnitude needs more than 31 bits. -/
  | overflow
  deriving DecidableEq, Repr

/-- What is wrong, in words. -/
def Fault.message : Fault → Text
  | malformed => "malformed literal"
  | overflow => "literal too large"

/-- The sign of a number and the text behind it; true stands for a minus sign. -/
def splitSign : Text → Bool × Text
  | '-' :: rest => (true, rest)
  | t => (false, t)

/-- The base that a text announces and the text behind its marker. -/
def splitRadix : Text → Text.Radix × Text
  | '$' :: rest => (.hexadecimal, rest)
  | '0' :: 'x' :: rest => (.hexadecimal, rest)
  | '0' :: 'X' :: rest => (.hexadecimal, rest)
  | t => (.decimal, t)

/-- Every magnitude is below this bound, which is two to the power of 31. -/
def bound : Nat := 0x80000000

/-- The value of a literal. Blanks around it do not matter. -/
def parse (t : Text) : Except Fault Int :=
  let (negative, unsigned) := splitSign (Text.dropMarker immediateMarker (Text.trim t))
  let (radix, digits) := splitRadix unsigned
  match Text.readDigits? radix digits with
  | none => .error .malformed
  | some n =>
    if bound ≤ n then .error .overflow
    else .ok (if negative then -(n : Int) else n)

/-- The value of a literal, if the text is one. -/
def value? (t : Text) : Option Int :=
  match parse t with
  | .ok v => some v
  | .error _ => none

/-- Whether a number can be written in a byte, signed or not. -/
def FitsByte (v : Int) : Prop := -128 ≤ v ∧ v ≤ 255

/-- Whether a number can be written in a word, signed or not. -/
def FitsWord (v : Int) : Prop := -32768 ≤ v ∧ v ≤ 65535

instance (v : Int) : Decidable (FitsByte v) := inferInstanceAs (Decidable (_ ∧ _))

instance (v : Int) : Decidable (FitsWord v) := inferInstanceAs (Decidable (_ ∧ _))

theorem FitsByte.fitsWord {v : Int} (h : FitsByte v) : FitsWord v := by
  unfold FitsByte at h
  unfold FitsWord
  omega

/-- The value of a literal as an address. -/
def address? (t : Text) : Option Word :=
  match value? t with
  | none => none
  | some v => if 0 ≤ v ∧ v < 65536 then some (UInt16.ofNat v.toNat) else none

/-- A literal's value lies strictly between the negated bound and the bound. -/
theorem natAbs_lt_bound {t : Text} {v : Int} (h : parse t = .ok v) : v.natAbs < bound := by
  unfold parse at h
  simp only at h
  split at h
  · exact absurd h (by simp)
  · split at h
    · exact absurd h (by simp)
    · cases h
      split <;> omega

end Mc6800.Literal
