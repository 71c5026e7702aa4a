import Mc6800.Instruction.Set
import Mc6800.Operand.Shape
import Mc6800.Source.Scanner

/-!
# Statements

What one line of source says. The first word of a line is read as an instruction with the second
word as its operand. If there is no such instruction, the first word is a label, and the words
behind it are mnemonic and operand. Whether the instruction exists is left open in the statement
and answered by `Statement.instruction?`.
-/

set_option autoImplicit false

namespace Mc6800

/-- The statement of one line of source. -/
inductive Statement where
  /-- A blank line or a comment. -/
  | empty
  /-- Assembly goes on at another address. -/
  | origin (keyword : Field) (operand : Option Field)
  /-- The end of the source, which is only noted. -/
  | finish (label : Option Field)
  /-- A label with nothing behind it. -/
  | label (name : Field)
  /-- An instruction, whether or not it exists, behind an optional label. -/
  | operation (label : Option Field) (mnemonic : Field) (operand : Option Field)
  deriving DecidableEq, Repr

namespace Statement

/-- Whether a line is a comment from its first character on. -/
def isComment (line : Text) : Bool :=
  match Text.trimStart line with
  | '*' :: _ => true
  | ';' :: _ => true
  | _ => false

/-- The part of a line in front of its first semicolon. -/
def codePart (line : Text) : Text := line.takeWhile (· != ';')

/-- Whether a field marks the end of the source. -/
def isFinish (f : Field) : Bool := f.is "END" || f.is ".END"

/-- The instruction that a mnemonic and an operand spell, if there is one. -/
def instructionOf (mnemonic : Field) (operand : Option Field) : Option Instruction :=
  Instruction.find? mnemonic.text (Mode.ofOperand (operand.map Field.text))

/-- The statement of a line whose first word is `first`, with the rest in front of `s`. -/
def ofWords (first : Field) (s : Scanner) : Statement :=
  if first.is "ORG" then origin first s.nextWord.1
  else if isFinish first then finish none
  else
    let (second, s) := s.nextWord
    if (instructionOf first second).isSome then operation none first second
    else
      match second with
      | none => label first
      | some mnemonic =>
        if isFinish mnemonic then finish (some first)
        else operation (some first) mnemonic s.remainder.1

/-- The statement of the code part of a line. -/
def ofCode (code : Text) : Statement :=
  match (Scanner.ofLine code).nextWord with
  | (none, _) => empty
  | (some first, s) => ofWords first s

/-- The statement of a line. -/
def parse (line : Text) : Statement :=
  if isComment line then empty else ofCode (codePart line)

/-- The label that a statement defines. -/
def label? : Statement → Option Field
  | empty | origin .. => none
  | finish l | operation l .. => l
  | label name => some name

/-- The instruction of a statement, if it has one and that exists. -/
def instruction? : Statement → Option Instruction
  | operation _ mnemonic operand => instructionOf mnemonic operand
  | _ => none

/-- The address that a statement moves assembly to, if it has one that can be read. -/
def target? : Statement → Option Word
  | origin _ (some operand) => Literal.address? operand.text
  | _ => none

@[simp] theorem parse_nil : parse [] = empty := rfl

theorem parse_of_isComment {line : Text} (h : isComment line = true) : parse line = empty := by
  simp [parse, h]

end Statement

end Mc6800
