import Mc6800.Instruction.Mnemonic
import Mc6800.Source.Field
import Mc6800.Text.Number

/-!
# Faults

What can be wrong with a line of source. A fault concerns one line only and carries the offending
piece of that line, which its message ends with.
-/

set_option autoImplicit false

namespace Mc6800

/-- What is wrong with a line, with the piece of the line that is to blame. -/
inductive Fault where
  /-- There is no readable address to move to. -/
  | badOrigin (operand : Text)
  /-- There is no such mnemonic, or not with an operand of this shape. -/
  | invalidInstruction (mnemonic : Text)
  /-- The operand is neither a known label nor a literal. -/
  | unresolvedOperand (operand : Text)
  /-- The operand's value has no place in the instruction. -/
  | valueOutOfRange (operand : Text) (value : Int)
  /-- The branch target is too far away. -/
  | branchOutOfRange (operand : Text) (distance : Int)
  deriving DecidableEq, Repr

namespace Fault

/-- The offending piece of the line. -/
def token : Fault → Text
  | badOrigin t | invalidInstruction t | unresolvedOperand t | valueOutOfRange t _
  | branchOutOfRange t _ => t

/-- What is wrong, in words. -/
def message : Fault → Text
  | badOrigin t => "cannot resolve origin -> " ++ t
  | invalidInstruction t => "invalid instruction -> " ++ t
  | unresolvedOperand t => "cannot resolve operand -> " ++ t
  | valueOutOfRange t v => "value " ++ Text.ofInt v ++ " out of range -> " ++ t
  | branchOutOfRange t d => "branch offset " ++ Text.ofInt d ++ " out of range -> " ++ t

/-- The code under which a fault of this kind is listed. -/
def code : Fault → Text
  | badOrigin _ => "asm::origin"
  | invalidInstruction _ => "asm::instruction"
  | unresolvedOperand _ => "asm::operand"
  | valueOutOfRange .. => "asm::range"
  | branchOutOfRange .. => "asm::branch"

/-- What is written at the offending piece. -/
def label : Fault → Text
  | badOrigin _ => "bad origin"
  | invalidInstruction _ => "invalid instruction"
  | unresolvedOperand _ => "unresolved operand"
  | valueOutOfRange .. => "out of range"
  | branchOutOfRange .. => "branch too far"

/-- What to do about it. -/
def help : Fault → Text
  | badOrigin _ => "ORG expects an address like $C000"
  | invalidInstruction t =>
    if (Mnemonic.ofWord? t).isSome then Text.upper t ++ " does not support this addressing mode"
    else "check the list of supported mnemonics in the documentation"
  | unresolvedOperand _ => "operands are labels, decimal literals, or hex literals like $1F"
  | valueOutOfRange .. => "the value does not fit in this operand"
  | branchOutOfRange .. => "branches reach 128 bytes back or 127 bytes forward; try JMP"

/-- A message ends with the offending piece. -/
theorem token_isSuffix_message (f : Fault) : f.token <:+ f.message := by
  cases f <;> exact List.suffix_append ..

end Fault

end Mc6800
