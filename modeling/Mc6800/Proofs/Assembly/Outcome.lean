import Mc6800.Assembly.Passes
import Mc6800.Proofs.Source.Fields

/-!
# What becomes of a statement

An instruction is encoded exactly if its operand has a value that its mode accepts
(`Instruction.encode_eq`). Code comes from an instruction that exists and has exactly its length
(`Statement.exists_encode_of_outcome_eq_bytes`), which is what the first pass leaves for it. A fault
blames one of the statement's fields, as it is written or, for an instruction that does not exist,
in upper case (`Statement.exists_field_of_outcome_eq_fault`).
-/

set_option autoImplicit false

namespace Mc6800

/-! ## Encoding -/

theorem LabelTable.resolve?_of_get? {labels : LabelTable} {t : Text} {address : Word}
    (h : labels.get? t = some address) : labels.resolve? t = some (address.toNat : Int) := by
  rw [resolve?, h]

/-- Whether a branch can carry a distance. -/
def InReach (distance : Int) : Prop := -128 ≤ distance ∧ distance ≤ 127

instance (distance : Int) : Decidable (InReach distance) := inferInstanceAs (Decidable (_ ∧ _))

namespace Mode

variable (mode : Mode) (location : Word) (operand : Text) (value : Int)

/-- Whether an instruction in this mode at `location` can carry a value. -/
def Accepts : Prop :=
  match mode with
  | immediate => Literal.FitsByte value
  | immediate16 | extended => Literal.FitsWord value
  | relative => InReach (branchDistance location value)
  | direct | indexed | inherent => True

instance : Decidable (mode.Accepts location value) :=
  match mode with
  | immediate => inferInstanceAs (Decidable (Literal.FitsByte value))
  | immediate16 | extended => inferInstanceAs (Decidable (Literal.FitsWord value))
  | relative => inferInstanceAs (Decidable (InReach (branchDistance location value)))
  | direct | indexed | inherent => inferInstanceAs (Decidable True)

/-- Every address is accepted as an absolute one. -/
theorem accepts_extended (location address : Word) :
    extended.Accepts location (address.toNat : Int) := by
  have hbound : address.toNat < 65536 := address.toNat_lt
  show -32768 ≤ (address.toNat : Int) ∧ (address.toNat : Int) ≤ 65535
  omega

/-- The bytes of a value behind the opcode. -/
def bytes : List Byte :=
  match mode with
  | immediate | direct | indexed => [UInt8.ofInt value]
  | immediate16 | extended => [Word.high (UInt16.ofInt value), Word.low (UInt16.ofInt value)]
  | relative => [UInt8.ofInt (branchDistance location value)]
  | inherent => []

/-- The fault of a value that the mode does not accept. -/
def refusal : Fault :=
  match mode with
  | relative => .branchOutOfRange operand (branchDistance location value)
  | immediate | immediate16 | direct | indexed | extended | inherent =>
    .valueOutOfRange operand value

theorem encodeValue_eq :
    encodeValue mode location operand value =
      if mode.Accepts location value then .ok (mode.bytes location value)
      else .error (mode.refusal location operand value) := by
  cases mode with
  | immediate | immediate16 | extended | relative => rfl
  | direct | indexed | inherent => exact (if_pos trivial).symm

end Mode

namespace Instruction

variable {i : Instruction} {labels : LabelTable} {operand : Text} {location : Word} {value : Int}
  {code : List Byte}

/-- An instruction is encoded exactly if its operand has a value that the mode accepts. -/
theorem encode_eq (i : Instruction) (labels : LabelTable) (operand : Text) (location : Word) :
    i.encode labels operand location =
      match labels.operandValue? i.mode operand with
      | none => .error (.unresolvedOperand operand)
      | some value =>
        if i.mode.Accepts location value then .ok (i.opcode :: i.mode.bytes location value)
        else .error (i.mode.refusal location operand value) := by
  unfold encode
  cases labels.operandValue? i.mode operand with
  | none => rfl
  | some value =>
    dsimp only
    rw [Mode.encodeValue_eq]
    by_cases h : i.mode.Accepts location value
    · rw [if_pos h, if_pos h]
    · rw [if_neg h, if_neg h]

theorem encode_of_accepts (hvalue : labels.operandValue? i.mode operand = some value)
    (h : i.mode.Accepts location value) :
    i.encode labels operand location = .ok (i.opcode :: i.mode.bytes location value) := by
  rw [encode_eq, hvalue]
  exact if_pos h

theorem encode_of_not_accepts (hvalue : labels.operandValue? i.mode operand = some value)
    (h : ¬i.mode.Accepts location value) :
    i.encode labels operand location = .error (i.mode.refusal location operand value) := by
  rw [encode_eq, hvalue]
  exact if_neg h

theorem encode_eq_ok_iff :
    i.encode labels operand location = .ok code ↔
      ∃ value, labels.operandValue? i.mode operand = some value ∧
        i.mode.Accepts location value ∧ code = i.opcode :: i.mode.bytes location value := by
  constructor
  · intro h
    rw [encode_eq] at h
    split at h
    · cases h
    · next value hvalue =>
      split at h
      · next haccepts =>
        cases h
        exact ⟨value, hvalue, haccepts, rfl⟩
      · cases h
  · rintro ⟨value, hvalue, haccepts, rfl⟩
    exact encode_of_accepts hvalue haccepts

theorem exists_eq_cons_of_encode (h : i.encode labels operand location = .ok code) :
    ∃ operands, code = i.opcode :: operands := by
  obtain ⟨value, -, -, rfl⟩ := encode_eq_ok_iff.1 h
  exact ⟨_, rfl⟩

end Instruction

/-- How a fault quotes the piece of the line that it blames: in upper case if there is no such
instruction, and else as it is written. -/
def Fault.quote (piece : Text) : Fault → Text
  | invalidInstruction _ => Text.upper piece
  | badOrigin _ | unresolvedOperand _ | valueOutOfRange .. | branchOutOfRange .. => piece

theorem Fault.quote_eq_or (f : Fault) (piece : Text) :
    f.quote piece = piece ∨ f.quote piece = Text.upper piece := by
  cases f with
  | invalidInstruction _ => exact .inr rfl
  | badOrigin _ | unresolvedOperand _ | valueOutOfRange _ _ | branchOutOfRange _ _ => exact .inl rfl

theorem Mode.quote_refusal (mode : Mode) (location : Word) (operand : Text) (value : Int) :
    (mode.refusal location operand value).token =
      (mode.refusal location operand value).quote operand := by
  cases mode <;> rfl

theorem Instruction.quote_of_encode_eq_error {i : Instruction} {labels : LabelTable}
    {operand : Text} {location : Word} {f : Fault}
    (h : i.encode labels operand location = .error f) : f.token = f.quote operand := by
  rw [encode_eq] at h
  split at h
  · cases h
    rfl
  · split at h
    · cases h
    · cases h
      exact Mode.quote_refusal ..

theorem Instruction.mode_of_find {i : Instruction} {m : Mnemonic} {mode : Mode}
    (h : find m mode = some i) : i.mode = mode := by
  have := List.find?_some h
  simp only [decide_eq_true_eq] at this
  exact this.2

theorem Statement.mode_of_instructionOf_none {mnemonic : Field} {i : Instruction}
    (h : Statement.instructionOf mnemonic none = some i) : i.mode = .inherent := by
  unfold Statement.instructionOf Instruction.find? at h
  split at h
  · cases h
  · next m _ =>
    have hmode :
        (Mode.ofOperand ((none : Option Field).map Field.text)).readings = [.inherent] := rfl
    rw [hmode, List.findSome?_singleton] at h
    exact Instruction.mode_of_find h

theorem Instruction.encode_of_inherent {i : Instruction} (h : i.mode = .inherent)
    (labels : LabelTable) (operand : Text) (location : Word) :
    i.encode labels operand location = .ok [i.opcode] := by
  simp only [Instruction.encode, h, LabelTable.operandValue?, encodeValue]

/-! ## Code -/

/-- What becomes of a line with an instruction of this encoding. -/
def LineOutcome.ofEncoding (span : Span) : Except Fault (List Byte) → LineOutcome
  | .ok encoded => .bytes encoded
  | .error f => .fault f span

theorem LineOutcome.code_ofEncoding (span : Span) (encoding : Except Fault (List Byte)) :
    (ofEncoding span encoding).code = encoding.toOption.getD [] := by
  cases encoding <;> rfl

theorem LineOutcome.isFault_ofEncoding (span : Span) (encoding : Except Fault (List Byte)) :
    (ofEncoding span encoding).isFault = encoding.toOption.isNone := by
  cases encoding <;> rfl

/-- What becomes of an instruction is decided by its encoding. -/
theorem Statement.outcome_operation {m : Field} {o : Option Field} {i : Instruction}
    (hi : instructionOf m o = some i) (l : Option Field) (labels : LabelTable) (location : Word) :
    (operation l m o).outcome labels location = .ofEncoding (o.getD m).span
      (i.encode labels (Text.trim ((o.map Field.text).getD [])) location) := by
  have hi : (operation l m o).instruction? = some i := hi
  simp only [outcome, hi]
  cases i.encode labels (Text.trim ((o.map Field.text).getD [])) location <;> rfl

theorem Statement.outcome_operation_of_isTrimmed {m f : Field} {i : Instruction}
    (hi : instructionOf m (some f) = some i) (htrim : Text.IsTrimmed f.text) (l : Option Field)
    (labels : LabelTable) (location : Word) :
    (operation l m (some f)).outcome labels location =
      .ofEncoding f.span (i.encode labels f.text location) := by
  have htext : Text.trim (((some f).map Field.text).getD []) = f.text :=
    Text.trim_of_isTrimmed htrim
  rw [outcome_operation hi, htext, Option.getD_some]

theorem LineOutcome.code_eq_nil_of_isFault {o : LineOutcome} (h : o.isFault = true) :
    o.code = [] := by
  cases o with
  | fault _ _ => rfl
  | empty | bytes _ => simp [isFault] at h

theorem Assembly.isFault_eq_false {a : Assembly} (h : a.hasFaults = false) {l : PlacedLine}
    (hl : l ∈ a.lines) : l.outcome.isFault = false := by
  rw [hasFaults, List.any_eq_false] at h
  exact Bool.eq_false_iff.2 (h l hl)

namespace Statement

/-- Whether a statement asks for an instruction, whether or not that exists. -/
def isOperation : Statement → Bool
  | operation .. => true
  | _ => false

/-- Whether a statement asks to move assembly, whether or not its address can be read. -/
def isOrigin : Statement → Bool
  | origin .. => true
  | _ => false

/-- Whether a statement defines this label, in either case. -/
def defines (s : Statement) (name : Text) : Bool := s.label?.any fun f => f.is name

/-- The label that a statement defines, as it is kept. -/
def labelName? (s : Statement) : Option Text := s.label?.map fun f => Text.upper f.text

variable {labels : LabelTable} {location : Word}

theorem mem_all_of_instruction? {s : Statement} {i : Instruction}
    (h : s.instruction? = some i) : i ∈ Instruction.all := by
  cases s with
  | operation _ _ _ => exact Instruction.mem_all_of_find? h
  | empty | origin _ _ | finish _ | label _ => cases h

theorem exists_encode_of_outcome_eq_bytes (s : Statement) {code : List Byte}
    (h : s.outcome labels location = .bytes code) :
    ∃ i operand, s.instruction? = some i ∧ i.encode labels operand location = .ok code := by
  cases s with
  | empty | finish _ | label _ => cases h
  | origin keyword operand =>
    dsimp only [outcome] at h
    split at h <;> cases h
  | operation l mnemonic operand =>
    dsimp only [outcome] at h
    split at h
    · cases h
    · next i hi =>
      split at h
      · next hbytes =>
        cases h
        exact ⟨i, _, hi, hbytes⟩
      · cases h

/-- Code is one instruction with exactly the bytes that it asks for. -/
theorem exists_decode?_of_outcome_eq_bytes (s : Statement) {code : List Byte}
    (h : s.outcome labels location = .bytes code) :
    ∃ i operands, code = i.opcode :: operands ∧ Instruction.decode? i.opcode = some i ∧
      operands.length + 1 = i.length := by
  obtain ⟨i, operand, hi, hencode⟩ := s.exists_encode_of_outcome_eq_bytes h
  obtain ⟨operands, rfl⟩ := Instruction.exists_eq_cons_of_encode hencode
  exact ⟨i, operands, rfl, Instruction.decode?_opcode (mem_all_of_instruction? hi),
    Instruction.length_encode hencode⟩

theorem length_of_outcome_eq_bytes (s : Statement) {code : List Byte}
    (h : s.outcome labels location = .bytes code) : code.length = Survey.sizeOf s := by
  obtain ⟨i, operand, hi, hcode⟩ := s.exists_encode_of_outcome_eq_bytes h
  cases s with
  | operation l mnemonic o => simp [Survey.sizeOf, hi, Instruction.length_encode hcode]
  | empty | finish _ | label _ | origin _ _ => cases hi

theorem exists_outcome_eq_bytes (s : Statement) (hs : s.isOperation = true)
    (h : (s.outcome labels location).isFault = false) :
    ∃ code, s.outcome labels location = .bytes code := by
  cases ho : s.outcome labels location with
  | bytes code => exact ⟨code, rfl⟩
  | fault _ _ => simp [ho, LineOutcome.isFault] at h
  | empty =>
    cases s with
    | empty | finish _ | label _ | origin _ _ => cases hs
    | operation l mnemonic operand =>
      dsimp only [outcome] at ho
      split at ho
      · cases ho
      · split at ho <;> cases ho

theorem code_outcome_of_not_isOperation (s : Statement) (hs : s.isOperation = false)
    (labels : LabelTable) (location : Word) :
    (s.outcome labels location).code = [] ∧ Survey.sizeOf s = 0 := by
  cases s with
  | empty | finish _ | label _ => exact ⟨rfl, rfl⟩
  | origin keyword operand =>
    refine ⟨?_, rfl⟩
    dsimp only [outcome]
    split <;> rfl
  | operation _ _ _ => cases hs

end Statement

theorem Statement.target?_of_not_isOrigin {s : Statement} (h : s.isOrigin = false) :
    s.target? = none := by
  cases s with
  | origin _ _ => cases h
  | empty | finish _ | label _ | operation _ _ _ => rfl

/-! ## Faults -/

/-- **A fault blames a field of its statement**: its span is that field's and its token the field's
text, in upper case if there is no such instruction. -/
theorem Statement.exists_field_of_outcome_eq_fault {s : Statement} {labels : LabelTable}
    {location : Word} {f : Fault} {span : Span} (hs : ∀ g ∈ s.fields, Text.IsTrimmed g.text)
    (h : s.outcome labels location = .fault f span) :
    ∃ g ∈ s.fields, span = g.span ∧ f.token = f.quote g.text := by
  cases s with
  | empty | finish _ | label _ => cases h
  | origin keyword operand =>
    dsimp only [outcome] at h
    split at h
    · cases h
    · cases h
      cases operand with
      | none => exact ⟨keyword, by simp [fields], rfl, rfl⟩
      | some o => exact ⟨o, by simp [fields], rfl, rfl⟩
  | operation l mnemonic operand =>
    dsimp only [outcome] at h
    split at h
    · cases h
      exact ⟨mnemonic, by simp [fields], rfl, rfl⟩
    · next i hi =>
      cases operand with
      | none =>
        rw [Instruction.encode_of_inherent (mode_of_instructionOf_none hi)] at h
        cases h
      | some o =>
        split at h
        · cases h
        · next hfault =>
          cases h
          have ho : o ∈ (operation l mnemonic (some o)).fields := by simp [fields]
          refine ⟨o, ho, rfl, ?_⟩
          rw [Instruction.quote_of_encode_eq_error hfault, Option.map_some, Option.getD_some,
            Text.trim_of_isTrimmed (hs o ho)]

end Mc6800
