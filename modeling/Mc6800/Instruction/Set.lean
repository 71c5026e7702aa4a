import Mc6800.Instruction.Mode
import Mc6800.Instruction.Mnemonic
import Mc6800.Word

/-!
# The instruction set

An instruction is a mnemonic in one of its addressing modes, with the opcode that encodes the two.
`Instruction.find?` goes from the written form to the instruction and `Instruction.decode?` from
the opcode. No two instructions share an opcode, and none shares both mnemonic and mode.
-/

set_option autoImplicit false

namespace Mc6800

/-- A mnemonic in an addressing mode, with its opcode. -/
structure Instruction where
  mnemonic : Mnemonic
  mode : Mode
  opcode : Byte
  deriving DecidableEq, Repr

namespace Instruction

/-- The supported instructions. -/
def all : List Instruction :=
  [⟨.ldaa, .immediate, 0x86⟩, ⟨.ldab, .immediate, 0xC6⟩, ⟨.adda, .immediate, 0x8B⟩,
   ⟨.addb, .immediate, 0xCB⟩, ⟨.suba, .immediate, 0x80⟩, ⟨.subb, .immediate, 0xC0⟩,
   ⟨.cmpa, .immediate, 0x81⟩, ⟨.cmpb, .immediate, 0xC1⟩, ⟨.anda, .immediate, 0x84⟩,
   ⟨.ldx, .immediate16, 0xCE⟩,
   ⟨.ldaa, .direct, 0x96⟩, ⟨.ldab, .direct, 0xD6⟩, ⟨.staa, .direct, 0x97⟩,
   ⟨.stab, .direct, 0xD7⟩, ⟨.ldx, .direct, 0xDE⟩, ⟨.stx, .direct, 0xDF⟩, ⟨.cmpa, .direct, 0x91⟩,
   ⟨.cmpb, .direct, 0xD1⟩, ⟨.anda, .direct, 0x94⟩, ⟨.adda, .direct, 0x9B⟩,
   ⟨.suba, .direct, 0x90⟩,
   ⟨.ldaa, .indexed, 0xA6⟩, ⟨.ldab, .indexed, 0xE6⟩, ⟨.staa, .indexed, 0xA7⟩,
   ⟨.stab, .indexed, 0xE7⟩, ⟨.ldx, .indexed, 0xEE⟩, ⟨.stx, .indexed, 0xEF⟩,
   ⟨.ldaa, .extended, 0xB6⟩, ⟨.ldab, .extended, 0xF6⟩, ⟨.staa, .extended, 0xB7⟩,
   ⟨.stab, .extended, 0xF7⟩, ⟨.ldx, .extended, 0xFE⟩, ⟨.stx, .extended, 0xFF⟩,
   ⟨.cmpa, .extended, 0xB1⟩, ⟨.cmpb, .extended, 0xF1⟩, ⟨.anda, .extended, 0xB4⟩,
   ⟨.adda, .extended, 0xBB⟩, ⟨.suba, .extended, 0xB0⟩, ⟨.jmp, .extended, 0x7E⟩,
   ⟨.jsr, .extended, 0xBD⟩,
   ⟨.bra, .relative, 0x20⟩, ⟨.bne, .relative, 0x26⟩, ⟨.beq, .relative, 0x27⟩,
   ⟨.bpl, .relative, 0x2A⟩, ⟨.bmi, .relative, 0x2B⟩, ⟨.bsr, .relative, 0x8D⟩,
   ⟨.nop, .inherent, 0x01⟩, ⟨.inx, .inherent, 0x08⟩, ⟨.dex, .inherent, 0x09⟩,
   ⟨.clc, .inherent, 0x0C⟩, ⟨.sec, .inherent, 0x0D⟩, ⟨.sba, .inherent, 0x10⟩,
   ⟨.cba, .inherent, 0x11⟩, ⟨.tab, .inherent, 0x16⟩, ⟨.tba, .inherent, 0x17⟩,
   ⟨.aba, .inherent, 0x1B⟩, ⟨.rts, .inherent, 0x39⟩, ⟨.lsra, .inherent, 0x44⟩,
   ⟨.rora, .inherent, 0x46⟩, ⟨.asra, .inherent, 0x47⟩, ⟨.asla, .inherent, 0x48⟩,
   ⟨.rola, .inherent, 0x49⟩, ⟨.deca, .inherent, 0x4A⟩, ⟨.inca, .inherent, 0x4C⟩,
   ⟨.clra, .inherent, 0x4F⟩, ⟨.lsrb, .inherent, 0x54⟩, ⟨.rorb, .inherent, 0x56⟩,
   ⟨.asrb, .inherent, 0x57⟩, ⟨.aslb, .inherent, 0x58⟩, ⟨.rolb, .inherent, 0x59⟩,
   ⟨.decb, .inherent, 0x5A⟩, ⟨.incb, .inherent, 0x5C⟩, ⟨.clrb, .inherent, 0x5F⟩]

/-- The number of bytes of an instruction, its opcode included. -/
def length (i : Instruction) : Nat := i.mode.length

/-- The instruction with this mnemonic in exactly this mode. -/
def find (mnemonic : Mnemonic) (mode : Mode) : Option Instruction :=
  all.find? fun i => i.mnemonic = mnemonic ∧ i.mode = mode

/-- The instruction that `word` stands for before an operand of shape `shape`: the first reading of
the shape in which the mnemonic exists. None if the word is no mnemonic or has no such form. -/
def find? (word : Text) (shape : Mode) : Option Instruction :=
  match Mnemonic.ofWord? word with
  | none => none
  | some mnemonic => shape.readings.findSome? (find mnemonic)

/-- The instruction that an opcode encodes. -/
def decode? (opcode : Byte) : Option Instruction := all.find? fun i => i.opcode = opcode

/-- Every instruction is found again by its opcode. -/
theorem decode?_opcode {i : Instruction} (h : i ∈ all) : decode? i.opcode = some i := by
  have : ∀ i ∈ all, decode? i.opcode = some i := by decide +kernel
  exact this i h

/-- Every instruction is found again by its mnemonic and mode. -/
theorem find_mnemonic_mode {i : Instruction} (h : i ∈ all) : find i.mnemonic i.mode = some i := by
  have : ∀ i ∈ all, find i.mnemonic i.mode = some i := by decide +kernel
  exact this i h

theorem mem_all_of_find {m : Mnemonic} {mode : Mode} {i : Instruction} (h : find m mode = some i) :
    i ∈ all :=
  List.mem_of_find?_eq_some h

theorem mem_all_of_decode? {opcode : Byte} {i : Instruction} (h : decode? opcode = some i) :
    i ∈ all :=
  List.mem_of_find?_eq_some h

theorem mem_all_of_find? {word : Text} {shape : Mode} {i : Instruction}
    (h : find? word shape = some i) : i ∈ all := by
  unfold find? at h
  split at h
  · exact absurd h (by simp)
  · obtain ⟨mode, _, hm⟩ := List.exists_of_findSome?_eq_some h
    exact mem_all_of_find hm

end Instruction

end Mc6800
