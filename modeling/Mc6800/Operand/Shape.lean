import Mc6800.Instruction.Mode
import Mc6800.Operand.Literal

/-!
# The shape of an operand

Before an operand is evaluated, its characters alone suggest an addressing mode. The rules are
tried in order: nothing, an immediate marker, an index register behind a comma, an address of four
digits, a name or whole number, and anything else.
-/

set_option autoImplicit false

namespace Mc6800

namespace Operand

/-- The operand without `,X` at its end, if that is its end, in either case. -/
def dropIndex? (t : Text) : Option Text :=
  match t.reverse with
  | x :: ',' :: rest => if x = 'X' ∨ x = 'x' then some rest.reverse else none
  | _ => none

/-- `$` and four digits of base sixteen, or four decimal digits. -/
def isAddress (t : Text) : Bool :=
  match t with
  | '$' :: digits => digits.length == 4 && (Text.readDigits? .hexadecimal digits).isSome
  | digits => digits.length == 4 && (Text.readDigits? .decimal digits).isSome

/-- Decimal digits behind at most one minus sign. -/
def isInteger (t : Text) : Bool := (Text.readDigits? .decimal (Text.dropMarker '-' t)).isSome

/-- Whether a character may stand in a name: an ASCII letter, an underscore or a digit. -/
def isNameChar (c : Char) : Bool := c.isAlphanum || c == '_'

/-- A name: letters, digits and underscores, the first no digit. -/
def isName : Text → Bool
  | [] => false
  | c :: rest => (c.isAlpha || c == '_') && rest.all isNameChar

end Operand

/-- The mode that the shape of an operand suggests. Names behind an immediate marker count as
bytes. -/
def Mode.ofOperand (operand : Option Text) : Mode :=
  match Text.trim (operand.getD []) with
  | [] => .inherent
  | c :: rest =>
    if c = Literal.immediateMarker then
      match Literal.value? rest with
      | some v => if Literal.FitsByte v then .immediate else .immediate16
      | none => .immediate
    else if (Operand.dropIndex? (c :: rest)).isSome then .indexed
    else if Operand.isAddress (c :: rest) then .extended
    else if Operand.isInteger (c :: rest) || Operand.isName (c :: rest) then .relative
    else .direct

end Mc6800
