import Mc6800.Cpu.Execute
import Mc6800.Proofs.Assembly.Outcome

/-!
# Encoding and what the machine reads

An instruction is encoded exactly if its operand has a value that its mode accepts, and otherwise
has the fault that its mode refuses the value with. The machine decodes the opcode to the same
instruction and finds by its mode what was written: the value of an immediate, the address of a
memory operand, the target of a branch (`Statement.encoding_agrees`). Values are never cut to a
field that they do not fit, but for direct addresses and index offsets, which keep their low byte
(`Statement.locate_operand`).
-/

set_option autoImplicit false

namespace Mc6800

/-! ## Numbers in bytes and words -/

theorem Byte.toUInt16_ofInt (v : Int) : (UInt8.ofInt v).toUInt16 = UInt16.ofInt (v % 256) := by
  apply UInt16.toNat.inj
  rw [UInt8.toNat_toUInt16, UInt8.ofInt, UInt16.ofInt, UInt8.toNat_ofNat', UInt16.toNat_ofNat']
  omega

theorem Byte.signed_ofInt {v : Int} (h : -128 ≤ v ∧ v ≤ 127) : signed (UInt8.ofInt v) = v := by
  have hnat : (UInt8.ofInt v).toNat = (v % 256).toNat := by
    rw [UInt8.ofInt, UInt8.toNat_ofNat']
    omega
  unfold signed
  rw [hnat]
  omega

theorem Word.ofInt_toNat (w : Word) : UInt16.ofInt w.toNat = w := by
  have hw : w.toNat < 65536 := w.toNat_lt
  apply UInt16.toNat.inj
  rw [UInt16.ofInt, UInt16.toNat_ofNat']
  omega

theorem Word.ofInt_emod_of_le {v : Int} (h : v % 65536 ≤ 255) :
    UInt16.ofInt (v % 256) = UInt16.ofInt v := by
  apply UInt16.toNat.inj
  rw [UInt16.ofInt, UInt16.ofInt, UInt16.toNat_ofNat', UInt16.toNat_ofNat']
  omega

/-- A number that wraps around in 32 bits has the same lower 16. -/
theorem Word.ofInt_bmod (v : Int) : UInt16.ofInt (v.bmod 0x100000000) = UInt16.ofInt v := by
  have hlow : v.bmod 0x100000000 % 2 ^ 16 = v % 2 ^ 16 := by
    rw [Int.bmod_eq_self_sub_mul_bdiv]
    omega
  rw [UInt16.ofInt, UInt16.ofInt, hlow]

theorem Word.add_ofInt_branchDistance (location : Word) (target : Int) :
    UInt16.ofNat Mode.relative.length + UInt16.ofInt (branchDistance location target) =
      UInt16.ofInt target - location := by
  have hlocation : location.toNat < 65536 := location.toNat_lt
  rw [branchDistance, Word.ofInt_bmod]
  apply UInt16.toNat.inj
  rw [UInt16.toNat_add, UInt16.toNat_sub, UInt16.ofInt, UInt16.ofInt, UInt16.toNat_ofNat',
    UInt16.toNat_ofNat', UInt16.toNat_ofNat', Mode.length]
  omega

/-! ## What the machine finds -/

namespace Mode

variable {mode : Mode} {location : Word} {value : Int}

/-- What the machine is to find by this mode in an instruction that was written with this value. -/
def written (mode : Mode) (c : Cpu) (value : Int) : Location :=
  match mode with
  | inherent => .absent
  | immediate => .value (UInt16.ofInt (value % 256))
  | immediate16 => .value (UInt16.ofInt value)
  | direct => .address (UInt16.ofInt (value % 256))
  | indexed => .address (c.x + UInt16.ofInt (value % 256))
  | extended | relative => .address (UInt16.ofInt value)

/-- A branch arrives as far from itself as its target is from where the branch was assembled. -/
theorem locate_bytes_relative (h : InReach (branchDistance location value)) (c : Cpu) :
    relative.locate c (relative.bytes location value) =
      .address (c.pc + (UInt16.ofInt value - location)) := by
  simp only [locate, bytes, List.getD_cons_zero, Byte.signed_ofInt h]
  rw [UInt16.add_assoc, Word.add_ofInt_branchDistance]

/-- What is no branch finds what was written wherever it is executed. -/
theorem locate_bytes_of_ne_relative (hmode : mode ≠ relative) (location : Word) (value : Int)
    (c : Cpu) : mode.locate c (mode.bytes location value) = mode.written c value := by
  cases mode with
  | relative => exact absurd rfl hmode
  | inherent => rfl
  | immediate => exact congrArg Location.value (Byte.toUInt16_ofInt value)
  | direct => exact congrArg Location.address (Byte.toUInt16_ofInt value)
  | indexed =>
    exact congrArg (fun offset => Location.address (c.x + offset)) (Byte.toUInt16_ofInt value)
  | immediate16 => exact congrArg Location.value (Word.ofBytes_high_low _)
  | extended => exact congrArg Location.address (Word.ofBytes_high_low _)

/-- The machine finds what was written, in the place for which it was encoded. -/
theorem locate_bytes (h : mode.Accepts location value) {c : Cpu} (hpc : c.pc = location) :
    mode.locate c (mode.bytes location value) = mode.written c value := by
  by_cases hmode : mode = relative
  · subst hmode
    have haddress : location + (UInt16.ofInt value - location) = UInt16.ofInt value := by grind
    rw [locate_bytes_relative h, hpc, haddress]
    rfl
  · exact locate_bytes_of_ne_relative hmode location value c

end Mode

theorem LineOutcome.ofEncoding_eq_bytes_iff {span : Span} {encoding : Except Fault (List Byte)}
    {code : List Byte} : ofEncoding span encoding = .bytes code ↔ encoding = .ok code := by
  cases encoding <;> simp [ofEncoding]

/-! ## Statements -/

namespace Statement

variable {s : Statement} {i : Instruction} {labels : LabelTable} {location : Word} {value : Int}

/-- The operand of a statement's instruction. -/
def operand? : Statement → Option Field
  | operation _ _ operand => operand
  | empty | origin .. | finish _ | label _ => none

/-- The text that a statement's instruction is encoded with, empty if there is no operand. -/
def operandText (s : Statement) : Text := Text.trim ((s.operand?.map Field.text).getD [])

/-- The encoding of a statement's instruction with its operand decides what becomes of it. -/
theorem exists_outcome_eq_ofEncoding (hi : s.instruction? = some i) :
    ∃ span, ∀ labels location,
      s.outcome labels location = .ofEncoding span (i.encode labels s.operandText location) := by
  cases s with
  | empty | origin _ _ | finish _ | label _ => cases hi
  | operation l m o => exact ⟨_, outcome_operation hi l⟩

/-- **What is encoded is what the machine reads.** An instruction has code exactly if its operand
has a value that the mode accepts. That code has the instruction's length, decodes to the same
instruction, and the machine finds in it by the mode what was written. Without a value, or with one
that is not accepted, there is the fault that says so. -/
theorem encoding_agrees (hi : s.instruction? = some i) (labels : LabelTable) (location : Word) :
    (∃ span, s.outcome labels location =
      .ofEncoding span (i.encode labels s.operandText location)) ∧
    ((∃ code, i.encode labels s.operandText location = .ok code) ↔
      ∃ value ∈ labels.operandValue? i.mode s.operandText, i.mode.Accepts location value) ∧
    (labels.operandValue? i.mode s.operandText = none →
      i.encode labels s.operandText location = .error (.unresolvedOperand s.operandText)) ∧
    ∀ value ∈ labels.operandValue? i.mode s.operandText,
      (¬i.mode.Accepts location value → i.encode labels s.operandText location =
        .error (i.mode.refusal location s.operandText value)) ∧
      ∀ code, i.encode labels s.operandText location = .ok code → code.length = i.length ∧
        ∃ operands, code = i.opcode :: operands ∧ Instruction.decode? i.opcode = some i ∧
          ∀ c : Cpu, c.pc = location → i.mode.locate c operands = i.mode.written c value := by
  refine ⟨?_, ⟨?_, ?_⟩, fun hnone => ?_, fun value hvalue => ⟨?_, fun code hcode => ⟨?_, ?_⟩⟩⟩
  · obtain ⟨span, houtcome⟩ := exists_outcome_eq_ofEncoding hi
    exact ⟨span, houtcome labels location⟩
  · rintro ⟨code, hcode⟩
    obtain ⟨value, hvalue, haccepts, -⟩ := Instruction.encode_eq_ok_iff.1 hcode
    exact ⟨value, hvalue, haccepts⟩
  · rintro ⟨value, hvalue, haccepts⟩
    exact ⟨_, Instruction.encode_of_accepts hvalue haccepts⟩
  · rw [Instruction.encode_eq, hnone]
  · exact Instruction.encode_of_not_accepts hvalue
  · exact Instruction.length_encode hcode
  · obtain ⟨value', hvalue', haccepts, rfl⟩ := Instruction.encode_eq_ok_iff.1 hcode
    cases hvalue.symm.trans hvalue'
    exact ⟨_, rfl, Instruction.decode?_opcode (mem_all_of_instruction? hi),
      fun c hpc => Mode.locate_bytes haccepts hpc⟩

/-- A branch at `$C000` reaches `$C081` with the largest distance that there is. -/
theorem encoding_agrees_bne :
    (parse "BNE $C081").instruction? = some ⟨.bne, .relative, 0x26⟩ ∧
      Mode.relative.locate (Cpu.reset loadAddress) [0x7F] = .address 0xC081 := by
  have hi : (parse "BNE $C081").instruction? = some ⟨.bne, .relative, 0x26⟩ := by decide +kernel
  refine ⟨hi, ?_⟩
  obtain ⟨-, -, -, h⟩ := encoding_agrees hi .empty loadAddress
  obtain ⟨-, hcode⟩ := h 0xC081 (by decide +kernel)
  obtain ⟨-, operands, hoperands, -, hlocate⟩ := hcode [0x26, 0x7F] (by decide +kernel)
  cases hoperands
  exact hlocate (Cpu.reset loadAddress) rfl

/-- **Where operands are kept whole.** An immediate or a two-byte address that is encoded fits its
field and is found there, and one that does not fit is refused. A direct address is found by its low
byte, and an offset to the index register is found whole if it fits a byte. -/
theorem locate_operand (hi : s.instruction? = some i) (labels : LabelTable) (location : Word)
    (hvalue : labels.operandValue? i.mode s.operandText = some value) :
    (∀ code, s.outcome labels location = .bytes code →
      ∃ operands, code = i.opcode :: operands ∧ ∀ c : Cpu,
        (i.mode = .immediate → Literal.FitsByte value ∧
          i.mode.locate c operands = .value (UInt16.ofInt (value % 256))) ∧
        (i.mode = .immediate16 → Literal.FitsWord value ∧
          i.mode.locate c operands = .value (UInt16.ofInt value)) ∧
        (i.mode = .extended → Literal.FitsWord value ∧
          i.mode.locate c operands = .address (UInt16.ofInt value)) ∧
        (i.mode = .direct → i.mode.locate c operands = .address (UInt16.ofInt (value % 256))) ∧
        (i.mode = .indexed → value % 65536 ≤ 255 →
          i.mode.locate c operands = .address (c.x + UInt16.ofInt value))) ∧
    ((i.mode = .immediate ∧ ¬Literal.FitsByte value) ∨
        ((i.mode = .immediate16 ∨ i.mode = .extended) ∧ ¬Literal.FitsWord value) →
      ∃ span, s.outcome labels location = .fault (.valueOutOfRange s.operandText value) span) := by
  obtain ⟨span, houtcome⟩ := exists_outcome_eq_ofEncoding hi
  rw [houtcome]
  constructor
  · intro code hcode
    obtain ⟨value', hvalue', haccepts, rfl⟩ :=
      Instruction.encode_eq_ok_iff.1 (LineOutcome.ofEncoding_eq_bytes_iff.1 hcode)
    cases hvalue.symm.trans hvalue'
    refine ⟨_, rfl, fun c => ⟨fun h => ?_, fun h => ?_, fun h => ?_, fun h => ?_,
      fun h hbyte => ?_⟩⟩
    all_goals
      have hmode : i.mode ≠ .relative := by rw [h]; decide
      have hlocate := Mode.locate_bytes_of_ne_relative hmode location value c
      rw [h] at haccepts hlocate ⊢
    · exact ⟨haccepts, hlocate⟩
    · exact ⟨haccepts, hlocate⟩
    · exact ⟨haccepts, hlocate⟩
    · exact hlocate
    · rw [hlocate, Mode.written, Word.ofInt_emod_of_le hbyte]
  · rintro (⟨hmode, hfits⟩ | ⟨hmode | hmode, hfits⟩)
    all_goals
      have hnot : ¬i.mode.Accepts location value := by rw [hmode]; exact hfits
      rw [Instruction.encode_of_not_accepts hvalue hnot, hmode]
      exact ⟨span, rfl⟩

/-- A jump to `-2` goes to the last address but one, and one to `65536` nowhere. -/
theorem locate_operand_jmp :
    Mode.extended.locate (Cpu.reset loadAddress) [0xFF, 0xFE] = .address 0xFFFE ∧
      ∃ span, (parse "JMP 65536").outcome .empty loadAddress =
        .fault (.valueOutOfRange "65536" 65536) span := by
  constructor
  · have hi : (parse "JMP -2").instruction? = some ⟨.jmp, .extended, 0x7E⟩ := by decide +kernel
    have hvalue : LabelTable.empty.operandValue? .extended (parse "JMP -2").operandText =
        some (-2) := by decide +kernel
    obtain ⟨operands, hoperands, hlocate⟩ :=
      (locate_operand hi .empty loadAddress hvalue).1 [0x7E, 0xFF, 0xFE] (by decide +kernel)
    cases hoperands
    obtain ⟨-, -, hextended, -⟩ := hlocate (Cpu.reset loadAddress)
    exact (hextended rfl).2
  · have hi : (parse "JMP 65536").instruction? = some ⟨.jmp, .extended, 0x7E⟩ := by decide +kernel
    have hvalue : LabelTable.empty.operandValue? .extended (parse "JMP 65536").operandText =
        some 65536 := by decide +kernel
    exact (locate_operand hi .empty loadAddress hvalue).2 (.inr ⟨.inr rfl, by decide⟩)

/-- The address `$123` is cut to `$23` behind an opcode for addresses of one byte, and the offset
`256` to nothing. -/
theorem operand_beyond_byte :
    ((parse "LDAA $123").instruction? = some ⟨.ldaa, .direct, 0x96⟩ ∧
      LabelTable.empty.operandValue? .direct (parse "LDAA $123").operandText =
        some 0x123 ∧
      (parse "LDAA $123").outcome .empty loadAddress = .bytes [0x96, 0x23] ∧
      Mode.direct.locate (Cpu.reset loadAddress) [0x23] ≠ .address 0x123) ∧
    ((parse "LDAA 256,X").instruction? = some ⟨.ldaa, .indexed, 0xA6⟩ ∧
      LabelTable.empty.operandValue? .indexed (parse "LDAA 256,X").operandText =
        some 256 ∧
      (parse "LDAA 256,X").outcome .empty loadAddress = .bytes [0xA6, 0x00] ∧
      Mode.indexed.locate (Cpu.reset loadAddress) [0x00] ≠ .address 256) := by
  decide +kernel

end Statement

end Mc6800
