import Mc6800.Proofs.Assembly.Counters
import Mc6800.Proofs.Source.Case

/-!
# Sources in upper case

Assembly does not tell the two cases of a letter apart. A statement in upper case has the same
label, target and size, so the first pass is the same, and it becomes the same code or the same
fault with its token in upper case (`Statement.outcome_upper`). So nothing else of an assembly
changes with the case of its source (`assemble_upper`).
-/

set_option autoImplicit false

namespace Mc6800

/-! ## Operands -/

theorem LabelTable.get?_upper (labels : LabelTable) (t : Text) :
    labels.get? (Text.upper t) = labels.get? t := by
  rw [get?, Text.upper_upper, get?]

theorem LabelTable.resolve?_upper (labels : LabelTable) (t : Text) :
    labels.resolve? (Text.upper t) = labels.resolve? t := by
  rw [resolve?, get?_upper, Literal.value?_upper, resolve?]

theorem Operand.core_upper (mode : Mode) (operand : Text) :
    core mode (Text.upper operand) = Text.upper (core mode operand) := by
  cases mode with
  | immediate | immediate16 => exact Text.dropMarker_upper rfl operand
  | indexed =>
    simp only [core, dropIndex?_upper]
    cases dropIndex? operand with
    | none => exact Text.trim_upper operand
    | some offset => exact Text.trim_upper offset
  | direct | extended | relative | inherent => rfl

theorem LabelTable.operandValue?_upper (labels : LabelTable) (mode : Mode) (operand : Text) :
    labels.operandValue? mode (Text.upper operand) = labels.operandValue? mode operand := by
  unfold operandValue?
  rw [Operand.core_upper]
  cases mode with
  | inherent => rfl
  | indexed =>
    cases Operand.core .indexed operand with
    | nil => rfl
    | cons c rest => exact resolve?_upper ..
  | immediate | immediate16 | direct | extended | relative => exact resolve?_upper ..

/-! ## Outcomes -/

/-- The same fault with its token in upper case. -/
def Fault.upper : Fault → Fault
  | badOrigin t => badOrigin (Text.upper t)
  | invalidInstruction t => invalidInstruction (Text.upper t)
  | unresolvedOperand t => unresolvedOperand (Text.upper t)
  | valueOutOfRange t value => valueOutOfRange (Text.upper t) value
  | branchOutOfRange t distance => branchOutOfRange (Text.upper t) distance

/-- The same outcome with the token of a fault in upper case. -/
def LineOutcome.upper : LineOutcome → LineOutcome
  | empty => empty
  | bytes code => bytes code
  | fault f span => fault f.upper span

/-- The line at the same address with the token of a fault in upper case. -/
def PlacedLine.upper (l : PlacedLine) : PlacedLine := ⟨l.address, l.outcome.upper⟩

theorem LineOutcome.code_upper (o : LineOutcome) : o.upper.code = o.code := by
  cases o <;> rfl

theorem Mode.refusal_upper (mode : Mode) (location : Word) (operand : Text) (value : Int) :
    mode.refusal location (Text.upper operand) value =
      (mode.refusal location operand value).upper := by
  cases mode <;> rfl

theorem Instruction.encode_upper (i : Instruction) (labels : LabelTable) (operand : Text)
    (location : Word) :
    i.encode labels (Text.upper operand) location =
      (i.encode labels operand location).mapError Fault.upper := by
  rw [encode_eq, encode_eq, LabelTable.operandValue?_upper]
  cases labels.operandValue? i.mode operand with
  | none => rfl
  | some value =>
    dsimp only
    split
    · rfl
    · rw [Mode.refusal_upper]
      rfl

/-! ## Statements -/

namespace Statement

theorem labelName?_upper (s : Statement) : s.upper.labelName? = s.labelName? := by
  cases s with
  | empty | origin _ _ => rfl
  | label name => simp [upper, labelName?, label?]
  | finish l | operation l _ _ => cases l <;> simp [upper, labelName?, label?]

theorem sizeOf_upper (s : Statement) : Survey.sizeOf s.upper = Survey.sizeOf s := by
  have h := s.instruction?_upper
  cases s with
  | empty | finish _ | label _ | origin _ _ => rfl
  | operation l mnemonic operand =>
    simp only [upper] at h ⊢
    rw [Survey.sizeOf, h, Survey.sizeOf]

/-- A statement in upper case becomes the same code, or the same fault in upper case. -/
theorem outcome_upper (s : Statement) (labels : LabelTable) (location : Word) :
    s.upper.outcome labels location = (s.outcome labels location).upper := by
  cases s with
  | empty | finish _ | label _ => rfl
  | origin keyword operand =>
    have htarget := (origin keyword operand).target?_upper
    simp only [upper] at htarget
    simp only [upper, outcome, htarget, Field.getD_upper, Field.span_upper]
    cases (origin keyword operand).target? <;> rfl
  | operation l mnemonic operand =>
    have hinstruction := (operation l mnemonic operand).instruction?_upper
    simp only [upper] at hinstruction
    cases hi : instructionOf mnemonic operand with
    | none =>
      have hnone : (operation l mnemonic operand).instruction? = none := hi
      simp only [upper, outcome, hinstruction, hnone, Field.span_upper]
      rfl
    | some i =>
      have hi' : instructionOf mnemonic.upper (operand.map Field.upper) = some i := by
        rw [instructionOf_upper, hi]
      have htext : ((operand.map Field.upper).map Field.text).getD [] =
          Text.upper ((operand.map Field.text).getD []) := by
        cases operand <;> rfl
      rw [upper, outcome_operation hi, outcome_operation hi', htext, Field.getD_upper,
        Field.span_upper, Text.trim_upper, Instruction.encode_upper]
      cases i.encode labels (Text.trim ((operand.map Field.text).getD [])) location <;> rfl

end Statement

/-! ## Passes -/

theorem Survey.ofStatements_upper (base : Word) (statements : List Statement) :
    ofStatements base (statements.map Statement.upper) = ofStatements base statements := by
  have hnext : ∀ (v : Survey) (s : Statement), v.next s.upper = v.next s := by
    intro v s
    rw [next, next, define_congr s.labelName?_upper, s.target?_upper, s.sizeOf_upper]
  simp only [ofStatements, List.foldl_map, hnext]

theorem Emission.run_upper (labels : LabelTable) (e : Emission) (statements : List Statement) :
    run labels e (statements.map Statement.upper) =
      ((run labels e statements).1.map PlacedLine.upper, (run labels e statements).2) := by
  induction statements generalizing e with
  | nil => rfl
  | cons s rest ih =>
    have hnext : e.next s.upper (s.outcome labels e.location).upper =
        e.next s (s.outcome labels e.location) := by
      rw [next, next, s.target?_upper, LineOutcome.code_upper]
    simp only [List.map_cons, run, s.outcome_upper, hnext, ih, PlacedLine.upper]

/-- **Assembly does not depend on the case of letters.** A source in upper case has the same last
origin, the same labels in the same order and the same lines: at the same addresses, with the same
code, and with faults of the same kind, place and number whose tokens are in upper case. -/
theorem assemble_upper (source : Text) (base : Word) :
    let a := ((Assembler.ofSource source).withOrigin base).assemble
    let b := ((Assembler.ofSource (Text.upper source)).withOrigin base).assemble
    b.origin = a.origin ∧ b.labels = a.labels ∧ b.lines = a.lines.map PlacedLine.upper := by
  have hstatements : (Text.lines (Text.upper source)).map Statement.parse =
      ((Text.lines source).map Statement.parse).map Statement.upper := by
    rw [Text.lines_upper, List.map_map, List.map_map]
    exact List.map_congr_left fun line _ => Statement.parse_upper line
  simp only [Assembler.assemble, Assembler.secondPass, Assembler.firstPass, Assembler.withOrigin,
    Assembler.ofSource, Assembler.ofLines, hstatements, Survey.ofStatements_upper,
    Emission.run_upper, and_self]

end Mc6800
