import Mc6800.Cpu.Effect
import Mc6800.Instruction.Set

/-!
# Executing an instruction

What an instruction does to a state and what it reports of it, given the bytes behind its opcode.
Operand bytes that are missing read as zero and further ones are ignored. Arithmetic is modulo 256
on the accumulators and modulo 65536 on the index register and on addresses. Of the conditional
branches, two test the second accumulator for zero and two test the sign of the first.
-/

set_option autoImplicit false

namespace Mc6800

/-- What an instruction works on. -/
inductive Location where
  | absent
  /-- A value in the instruction itself. -/
  | value (w : Word)
  /-- A place in memory. -/
  | address (w : Word)
  deriving DecidableEq, Repr

namespace Location

/-- The byte that is there. -/
def byte (memory : Memory) : Location → Byte
  | absent => 0
  | value w => Word.low w
  | address w => memory.read w

/-- The word that is there. -/
def word (memory : Memory) : Location → Word
  | absent => 0
  | value w => w
  | address w => memory.readWord w

/-- The word that says where it is. -/
def pointer : Location → Word
  | absent => 0
  | value w | address w => w

end Location

/-- What an instruction works on in a state, by its mode and the bytes behind its opcode. -/
def Mode.locate (mode : Mode) (c : Cpu) (operands : List Byte) : Location :=
  let first := operands.getD 0 0
  let both := Word.ofBytes first (operands.getD 1 0)
  match mode with
  | .inherent => .absent
  | .immediate => .value first.toUInt16
  | .immediate16 => .value both
  | .direct => .address first.toUInt16
  | .indexed => .address (c.x + first.toUInt16)
  | .extended => .address both
  | .relative =>
    .address (c.pc + UInt16.ofNat Mode.relative.length + UInt16.ofInt (Byte.signed first))

namespace Cpu

/-- The difference of two bytes, not reduced to a byte. -/
def difference (x y : Byte) : Int := x.toNat - y.toNat

/-! ## Changes with their reports -/

section

variable (c : Cpu)

/-- Sets the first accumulator. -/
def setA (value : Byte) : Effect × Cpu := (.setA value, { c with a := value })

/-- Sets the second accumulator. -/
def setB (value : Byte) : Effect × Cpu := (.setB value, { c with b := value })

/-- Sets the index register. -/
def setX (value : Word) : Effect × Cpu := (.setX value, { c with x := value })

/-- Stores a byte. -/
def store (address : Word) (value : Byte) : Effect × Cpu :=
  (.storeByte address value, { c with memory := c.memory.write address value })

/-- Compares two bytes. -/
def compare (comparison : Comparison) (x y : Byte) : Effect × Cpu :=
  (.compare comparison (difference x y), c)

/-- Tells whether a branch is taken. -/
def branch (taken : Bool) (target : Word) : Effect × Cpu := (.branch taken target, c)

end

/-! ## Instructions -/

/-- Carries an instruction out: its effect, and the state behind it with the program counter still
on the instruction. -/
def execute (c : Cpu) (i : Instruction) (operands : List Byte) : Effect × Cpu :=
  let operand := i.mode.locate c operands
  let m := operand.byte c.memory
  match i.mnemonic with
  | .ldaa => c.setA m
  | .ldab => c.setB m
  | .ldx => c.setX (operand.word c.memory)
  | .staa => c.store operand.pointer c.a
  | .stab => c.store operand.pointer c.b
  | .stx =>
    let address := operand.pointer
    (.storeWord address c.x, { c with memory := c.memory.writeWord address c.x })
  | .tab => c.setB c.a
  | .tba => c.setA c.b
  | .clra => c.setA 0
  | .clrb => c.setB 0
  | .adda => c.setA (c.a + m)
  | .addb => c.setB (c.b + m)
  | .suba => c.setA (c.a - m)
  | .subb => c.setB (c.b - m)
  | .anda => c.setA (c.a &&& m)
  | .aba => c.setA (c.a + c.b)
  | .sba => c.setA (c.a - c.b)
  | .inca => c.setA (c.a + 1)
  | .deca => c.setA (c.a - 1)
  | .incb => c.setB (c.b + 1)
  | .decb => c.setB (c.b - 1)
  | .inx => c.setX (c.x + 1)
  | .dex => c.setX (c.x - 1)
  | .asla => c.setA (c.a <<< 1)
  | .aslb => c.setB (c.b <<< 1)
  | .lsra => c.setA (c.a >>> 1)
  | .lsrb => c.setB (c.b >>> 1)
  | .asra => c.setA (Byte.halveSigned c.a)
  | .asrb => c.setB (Byte.halveSigned c.b)
  | .rola => c.setA (Byte.rotateLeft c.a)
  | .rolb => c.setB (Byte.rotateLeft c.b)
  | .rora => c.setA (Byte.rotateRight c.a)
  | .rorb => c.setB (Byte.rotateRight c.b)
  | .cmpa => c.compare .accumulatorAWithOperand c.a m
  | .cmpb => c.compare .accumulatorBWithOperand c.b m
  | .cba => c.compare .accumulators c.a c.b
  | .bra | .bsr => c.branch true operand.pointer
  | .beq => c.branch (c.b == 0) operand.pointer
  | .bne => c.branch (c.b != 0) operand.pointer
  | .bmi => c.branch (Byte.isNegative c.a) operand.pointer
  | .bpl => c.branch (!Byte.isNegative c.a) operand.pointer
  | .jmp | .jsr => (.jump operand.pointer, c)
  | .rts => (.fallThrough, c)
  | .nop => (.nothing, c)
  | .clc | .sec => (.notSimulated, c)

/-- No instruction moves the program counter by itself. -/
@[simp] theorem pc_execute (c : Cpu) (i : Instruction) (operands : List Byte) :
    (c.execute i operands).2.pc = c.pc := by
  unfold execute
  cases i.mnemonic <;> rfl

/-- The effect of an instruction. -/
def effectOf (c : Cpu) (i : Instruction) (operands : List Byte) : Effect :=
  (c.execute i operands).1

/-- The state with the program counter at the target of an instruction's effect, or behind the
instruction. -/
def advance (c : Cpu) (i : Instruction) (effect : Effect) : Cpu :=
  { c with pc := effect.target?.getD (c.pc + UInt16.ofNat i.length) }

@[simp] theorem pc_advance (c : Cpu) (i : Instruction) (effect : Effect) :
    (c.advance i effect).pc = effect.target?.getD (c.pc + UInt16.ofNat i.length) := rfl

end Cpu

end Mc6800
