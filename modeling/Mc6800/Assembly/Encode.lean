import Mc6800.Assembly.Fault
import Mc6800.Instruction.Set
import Mc6800.LabelTable
import Mc6800.Operand.Shape

/-!
# Encoding an instruction

The bytes of an instruction are its opcode and the value of its operand in the form that the mode
asks for. An operand is a label or a literal; a label that looks like a literal is a label. Direct
addresses and index offsets keep their low byte only, every other value must fit its place.
-/

set_option autoImplicit false

namespace Mc6800

/-! ## Values -/

/-- What a name or a literal stands for: the address of a label, or else the literal's value. -/
def LabelTable.resolve? (labels : LabelTable) (t : Text) : Option Int :=
  match labels.get? t with
  | some address => some address.toNat
  | none => Literal.value? t

/-- The text of an operand that is resolved: without its immediate marker or its index register. -/
def Operand.core (mode : Mode) (operand : Text) : Text :=
  match mode with
  | .immediate | .immediate16 => Text.dropMarker Literal.immediateMarker operand
  | .indexed => Text.trim ((Operand.dropIndex? operand).getD operand)
  | .direct | .extended | .relative | .inherent => operand

/-- The value of an operand. An operand that is not there counts as zero, and so does an offset to
the index register that is left out. -/
def LabelTable.operandValue? (labels : LabelTable) (mode : Mode) (operand : Text) : Option Int :=
  match mode, Operand.core mode operand with
  | .inherent, _ => some 0
  | .indexed, [] => some 0
  | _, core => labels.resolve? core

/-! ## Bytes -/

/-- The distance from the end of a branch at `location` to its target. It has 32 bits and wraps
around if the target lies further back than they reach. -/
def branchDistance (location : Word) (target : Int) : Int :=
  (target - (location.toNat + Mode.relative.length)).bmod 0x100000000

/-- Where the difference has a place in 32 bits it is the distance. -/
theorem branchDistance_eq_sub {location : Word} {target : Int}
    (hlow : -0x80000000 ≤ target - (location.toNat + Mode.relative.length))
    (hhigh : target - (location.toNat + Mode.relative.length) < 0x80000000) :
    branchDistance location target = target - (location.toNat + Mode.relative.length) :=
  Int.bmod_eq_of_le hlow hhigh

/-- Addresses are never so far from each other that the distance wraps around. -/
theorem branchDistance_toNat (location target : Word) :
    branchDistance location target.toNat =
      target.toNat - (location.toNat + Mode.relative.length) := by
  have hlocation : location.toNat < 65536 := location.toNat_lt
  have htarget : target.toNat < 65536 := target.toNat_lt
  have hlength : Mode.relative.length = 2 := rfl
  exact branchDistance_eq_sub (by omega) (by omega)

/-- The bytes of a value behind the opcode of an instruction at `location`, or the fault of an
operand that has no such bytes. -/
def encodeValue (mode : Mode) (location : Word) (operand : Text) (value : Int) :
    Except Fault (List Byte) :=
  match mode with
  | .inherent => .ok []
  | .immediate =>
    if Literal.FitsByte value then .ok [UInt8.ofInt value]
    else .error (.valueOutOfRange operand value)
  | .direct | .indexed => .ok [UInt8.ofInt value]
  | .immediate16 | .extended =>
    if Literal.FitsWord value then
      .ok [Word.high (UInt16.ofInt value), Word.low (UInt16.ofInt value)]
    else .error (.valueOutOfRange operand value)
  | .relative =>
    let distance := branchDistance location value
    if -128 ≤ distance ∧ distance ≤ 127 then .ok [UInt8.ofInt distance]
    else .error (.branchOutOfRange operand distance)

/-- The bytes of an instruction at `location`. A fault blames the operand as it is written. -/
def Instruction.encode (i : Instruction) (labels : LabelTable) (operand : Text) (location : Word) :
    Except Fault (List Byte) :=
  match labels.operandValue? i.mode operand with
  | none => .error (.unresolvedOperand operand)
  | some value =>
    match encodeValue i.mode location operand value with
    | .error fault => .error fault
    | .ok bytes => .ok (i.opcode :: bytes)

/-- A value is encoded in as many bytes as its mode leaves behind the opcode. -/
theorem length_encodeValue {mode : Mode} {location : Word} {operand : Text} {value : Int}
    {bytes : List Byte} (h : encodeValue mode location operand value = .ok bytes) :
    bytes.length + 1 = mode.length := by
  cases mode <;> simp only [encodeValue] at h
  all_goals first | cases h; rfl | split at h <;> cases h; rfl

/-- An instruction is encoded in exactly its length. -/
theorem Instruction.length_encode {i : Instruction} {labels : LabelTable} {operand : Text}
    {location : Word} {bytes : List Byte} (h : i.encode labels operand location = .ok bytes) :
    bytes.length = i.length := by
  unfold Instruction.encode at h
  split at h
  · cases h
  · split at h
    · cases h
    · next hv =>
      cases h
      exact length_encodeValue hv

end Mc6800
