import Mc6800.Proofs.Assembly.Counters
import Mc6800.Proofs.Assembly.Encoding
import Mc6800.Proofs.Checked.Source
import Mc6800.Proofs.Text.Lines

/-!
# Assembling without traps

Statements are placed and encoded with numbers of 32 bits. The only number that may be out of range
is the distance of a branch, and it is exactly if the target lies too far back
(`Instruction.tooFarBack`): then encoding ends in an overflow, else in what it comes to without
bounds (`Checked.encode_eq`). Both passes follow line by line (`Checked.survey_eq`,
`Checked.emit_eq`).
-/

set_option autoImplicit false

namespace Mc6800

/-! ## Values of operands -/

/-- A value that an operand has comes from a word or from a literal. -/
theorem LabelTable.natAbs_operandValue?_lt {labels : LabelTable} {mode : Mode} {operand : Text}
    {value : Int} (h : labels.operandValue? mode operand = some value) :
    value.natAbs < Literal.bound := by
  have hresolve : ∀ t, labels.resolve? t = some value → value.natAbs < Literal.bound := by
    intro t ht
    unfold resolve? at ht
    split at ht
    · next address _ =>
      have := address.toNat_lt
      rw [← Option.some.inj ht]
      exact Nat.lt_trans (m := 65536) (by omega) (by decide)
    · unfold Literal.value? at ht
      split at ht
      · next v hv =>
        rw [← Option.some.inj ht]
        exact Literal.natAbs_lt_bound hv
      · cases ht
  unfold operandValue? at h
  split at h
  · rw [← Option.some.inj h]
    decide
  · rw [← Option.some.inj h]
    decide
  · exact hresolve _ h

namespace Checked

/-- The operand without `,X` at its end, if that is its end, in either case. -/
def dropIndex (t : Text) : Checked Text :=
  if Text.size t < Text.size indexSuffix then .ok t
  else
    let cut := Text.size t - Text.size indexSuffix
    match Text.dropBytes? cut t with
    | none => .ok t
    | some suffix => if Text.sameWord suffix indexSuffix then bytesUpTo cut t else .ok t

theorem sameWord_indexSuffix {t : Text} (h : Text.sameWord t indexSuffix = true) :
    ∃ x, (x = 'X' ∨ x = 'x') ∧ t = [',', x] := by
  rw [Text.sameWord, beq_iff_eq] at h
  have hlength := congrArg List.length h
  rw [Text.length_upper] at hlength
  obtain ⟨comma, x, rfl⟩ := List.length_eq_two.1 hlength
  obtain ⟨hcomma, hx⟩ := List.cons.inj h
  have hcomma : comma = ',' := (Text.toUpper_eq_iff rfl comma).1 hcomma
  have hx : x.toUpper = 'X' := (List.cons.inj hx).1
  exact ⟨x, (Text.toUpper_eq_x_iff x).1 (.inl hx), by rw [hcomma]⟩

theorem dropIndex_eq (t : Text) :
    dropIndex t = .ok ((Operand.dropIndex? t).getD t) := by
  unfold dropIndex
  cases hindex : Operand.dropIndex? t with
  | some front =>
    obtain ⟨x, hx, rfl⟩ := dropIndex?_eq_some_iff.1 hindex
    have hsize : Text.size [',', x] = 2 := by rcases hx with rfl | rfl <;> rfl
    have hword : Text.sameWord [',', x] indexSuffix = true := by rcases hx with rfl | rfl <;> decide
    have hsuffix : Text.size indexSuffix = 2 := rfl
    have hlong : ¬Text.size (front ++ [',', x]) < Text.size indexSuffix := by
      rw [Text.size_append, hsize, hsuffix]
      omega
    have hcut : Text.size (front ++ [',', x]) - Text.size indexSuffix = Text.size front := by
      rw [Text.size_append, hsize, hsuffix, Nat.add_sub_cancel]
    rw [if_neg hlong, hcut]
    dsimp only
    rw [Text.dropBytes?_size_append]
    dsimp only
    rw [if_pos hword, bytesUpTo_size_append]
    rfl
  | none =>
    split
    · rfl
    · dsimp only
      split
      -- The place to cut is within a character, and the text is left as it is.
      · rfl
      · next suffix hsuffix =>
        obtain ⟨front, ht, -⟩ := exists_of_dropBytes? hsuffix
        have hword : ¬Text.sameWord suffix indexSuffix = true := by
          intro hword
          obtain ⟨x, hx, rfl⟩ := sameWord_indexSuffix hword
          have hsome := dropIndex?_eq_some_iff.2 ⟨x, hx, ht⟩
          rw [hindex] at hsome
          cases hsome
        rw [if_neg hword]
        rfl

/-- What a name or a literal stands for. -/
def resolve? (labels : LabelTable) (t : Text) : Checked (Option Int) :=
  match labels.get? t with
  | some address => .ok (some address.toNat)
  | none => literalValue? t

theorem resolve?_eq (labels : LabelTable) (t : Text) :
    resolve? labels t = .ok (labels.resolve? t) := by
  unfold resolve? LabelTable.resolve?
  cases labels.get? t with
  | none => exact literalValue?_eq t
  | some address => rfl

/-- The value of an operand. -/
def operandValue? (labels : LabelTable) (mode : Mode) (operand : Text) : Checked (Option Int) :=
  match mode with
  | .inherent => .ok (some 0)
  | .immediate | .immediate16 => do
    let value ← dropMarker Literal.immediateMarker operand
    resolve? labels value
  | .indexed => do
    let offset ← dropIndex operand
    if (Text.trim offset).isEmpty then return some 0 else resolve? labels (Text.trim offset)
  | .direct | .extended | .relative => resolve? labels operand

theorem operandValue?_eq (labels : LabelTable) (mode : Mode) (operand : Text) :
    operandValue? labels mode operand = .ok (labels.operandValue? mode operand) := by
  cases mode with
  | inherent => rfl
  | immediate | immediate16 =>
    rw [operandValue?, dropMarker_eq, ok_bind, resolve?_eq]
    rfl
  | direct | extended | relative => exact resolve?_eq labels operand
  | indexed =>
    rw [operandValue?, dropIndex_eq, ok_bind, resolve?_eq]
    simp only [LabelTable.operandValue?, Operand.core]
    cases Text.trim ((Operand.dropIndex? operand).getD operand) <;> rfl

end Checked

/-! ## Encoding -/

/-- Whether the target of a branch at `location` lies so far back that the distance has no place in
32 bits. -/
def Instruction.tooFarBack (i : Instruction) (labels : LabelTable) (operand : Text)
    (location : Word) : Bool :=
  i.mode == .relative && (labels.operandValue? i.mode operand).any fun value =>
    value < (location.toNat : Int) + 2 - 0x80000000

namespace Checked

/-- The bytes of a value behind the opcode of an instruction at `location`. -/
def encodeValue (mode : Mode) (location : Word) (operand : Text) (value : Int) :
    Checked (Except Fault (List Byte)) :=
  match mode with
  | .relative => do
    let behind ← signed32 (location.toNat + Mode.relative.length)
    let distance ← signed32 (value - behind)
    return if -128 ≤ distance ∧ distance ≤ 127 then .ok [UInt8.ofInt distance]
      else .error (.branchOutOfRange operand distance)
  | .immediate | .immediate16 | .direct | .indexed | .extended | .inherent =>
    .ok (Mc6800.encodeValue mode location operand value)

theorem encodeValue_of_ne_relative {mode : Mode} (h : mode ≠ .relative) (location : Word)
    (operand : Text) (value : Int) :
    encodeValue mode location operand value =
      .ok (Mc6800.encodeValue mode location operand value) := by
  cases mode with
  | relative => exact absurd rfl h
  | immediate | immediate16 | direct | indexed | extended | inherent => rfl

/-- A value of 32 bits lies too far from a branch on one side only: a location is not negative. -/
theorem encodeValue_relative {value : Int} (hvalue : value.natAbs < Literal.bound)
    (location : Word) (operand : Text) :
    encodeValue .relative location operand value =
      if value < (location.toNat : Int) + 2 - 0x80000000 then .error .overflow
      else .ok (Mc6800.encodeValue .relative location operand value) := by
  have hlocation := location.toNat_lt
  have hlength : Mode.relative.length = 2 := rfl
  have hbound : Literal.bound = 0x80000000 := rfl
  have hbehind : Literal.FitsSigned ((location.toNat : Int) + Mode.relative.length) := by
    unfold Literal.FitsSigned
    omega
  rw [encodeValue, signed32_of_fits hbehind, ok_bind]
  split
  · next hback =>
    have hnot : ¬Literal.FitsSigned (value - (location.toNat + Mode.relative.length)) := by
      unfold Literal.FitsSigned
      omega
    rw [signed32, if_neg hnot]
    rfl
  · next hback =>
    have hfits : Literal.FitsSigned (value - (location.toNat + Mode.relative.length)) := by
      unfold Literal.FitsSigned
      omega
    rw [signed32_of_fits hfits, Mc6800.encodeValue, branchDistance_eq_sub hfits.1 hfits.2]
    rfl

/-- The bytes of an instruction at `location`. -/
def encode (i : Instruction) (labels : LabelTable) (operand : Text) (location : Word) :
    Checked (Except Fault (List Byte)) := do
  match ← operandValue? labels i.mode operand with
  | none => return .error (.unresolvedOperand operand)
  | some value =>
    match ← encodeValue i.mode location operand value with
    | .error fault => return .error fault
    | .ok bytes => return .ok (i.opcode :: bytes)

/-- **An instruction is encoded without a trap unless its target lies too far back.** -/
theorem encode_eq (i : Instruction) (labels : LabelTable) (operand : Text) (location : Word) :
    encode i labels operand location =
      if i.tooFarBack labels operand location then .error .overflow
      else .ok (i.encode labels operand location) := by
  rw [encode, operandValue?_eq, ok_bind, Instruction.encode, Instruction.tooFarBack]
  cases hvalue : labels.operandValue? i.mode operand with
  | none =>
    rw [Option.any_none, Bool.and_false]
    rfl
  | some value =>
    dsimp only
    rw [Option.any_some]
    by_cases hmode : i.mode = .relative
    · rw [hmode, encodeValue_relative (LabelTable.natAbs_operandValue?_lt hvalue)]
      by_cases hback : value < (location.toNat : Int) + 2 - 0x80000000
      · simp [hback]
      · simp only [hback, if_false, ok_bind]
        cases Mc6800.encodeValue .relative location operand value <;> rfl
    · rw [encodeValue_of_ne_relative hmode, ok_bind]
      simp only [beq_eq_false_iff_ne.2 hmode, Bool.false_and]
      cases Mc6800.encodeValue i.mode location operand value <;> rfl

end Checked

/-! ## Lines -/

/-- Whether the statement is a branch whose target lies too far back from `location`. -/
def Statement.tooFarBack (labels : LabelTable) (location : Word) (s : Statement) : Bool :=
  s.instruction?.any fun i => i.tooFarBack labels s.operandText location

namespace Checked

/-- What the second pass makes of a statement at `location`. -/
def outcome (labels : LabelTable) (location : Word) (s : Statement) : Checked LineOutcome :=
  match s with
  | .empty | .finish _ | .label _ => .ok .empty
  | .origin keyword operand => do
    match ← target? s with
    | some _ => return .empty
    | none =>
      let blamed := operand.getD keyword
      return .fault (.badOrigin blamed.text) blamed.span
  | .operation _ mnemonic operand => do
    match ← instruction? s with
    | none => return .fault (.invalidInstruction (Text.upper mnemonic.text)) mnemonic.span
    | some i =>
      let encoding ← encode i labels s.operandText location
      return .ofEncoding (operand.getD mnemonic).span encoding

theorem outcome_eq (labels : LabelTable) (location : Word) (s : Statement) :
    outcome labels location s =
      if s.tooFarBack labels location then .error .overflow
      else .ok (s.outcome labels location) := by
  cases s with
  | empty | finish _ | label _ => rfl
  | origin keyword operand =>
    rw [outcome, target?_eq, ok_bind, Statement.outcome]
    cases (Statement.origin keyword operand).target? <;> rfl
  | operation label mnemonic operand =>
    rw [outcome, instruction?_eq, ok_bind, Statement.tooFarBack]
    cases hi : (Statement.operation label mnemonic operand).instruction? with
    | none =>
      rw [Statement.outcome, hi]
      rfl
    | some i =>
      rw [Option.any_some, Statement.outcome_operation hi]
      dsimp only
      rw [encode_eq]
      split <;> rfl

/-- The number of bytes that the first pass leaves for a statement. -/
def sizeOf (s : Statement) : Checked Nat :=
  match s with
  | .operation .. => do
    let i ← instruction? s
    return (i.map Instruction.length).getD 1
  | _ => .ok 0

theorem sizeOf_eq (s : Statement) : sizeOf s = .ok (Survey.sizeOf s) := by
  cases s with
  | operation _ _ _ =>
    rw [sizeOf, instruction?_eq]
    rfl
  | empty | origin _ _ | finish _ | label _ => rfl

/-! ## Passes -/

/-- The first pass over lines, each of which it reads anew. -/
def survey (max : Nat) (v : Survey) : List Text → Checked Survey
  | [] => .ok v
  | line :: rest => do
    let s ← statement max line
    let size ← sizeOf s
    let target ← target? s
    let labels := Survey.define v.labels s.label? v.location
    match target with
    | some address => survey max ⟨address, address, labels⟩ rest
    | none => survey max ⟨v.location + UInt16.ofNat size, v.origin, labels⟩ rest

/-- The second pass over lines, each of which it reads anew. -/
def emit (max : Nat) (labels : LabelTable) (e : Emission) :
    List Text → Checked (List PlacedLine × Emission)
  | [] => .ok ([], e)
  | line :: rest => do
    let s ← statement max line
    let outcome ← outcome labels e.location s
    let target ← target? s
    let next : Emission := match target with
      | some address => ⟨address, address⟩
      | none => ⟨e.location + UInt16.ofNat outcome.code.length, e.origin⟩
    let (lines, final) ← emit max labels next rest
    return (⟨e.location, outcome⟩ :: lines, final)

variable {max : Nat} {lines : List Text}

/-- The first pass meets no trap. -/
theorem survey_eq (hmax : ∀ line ∈ lines, Text.size line ≤ max) (v : Survey) :
    survey max v lines = .ok ((lines.map Statement.parse).foldl Survey.next v) := by
  induction lines generalizing v with
  | nil => rfl
  | cons line rest ih =>
    obtain ⟨hline, hrest⟩ := List.forall_mem_cons.1 hmax
    rw [survey, statement_eq hline, ok_bind, sizeOf_eq, ok_bind, target?_eq, ok_bind,
      List.map_cons, List.foldl_cons, Survey.next]
    cases (Statement.parse line).target? <;> exact ih hrest _

end Checked

/-- Whether the second pass comes to a branch whose target lies too far back. -/
def Emission.tooFarBack (labels : LabelTable) (e : Emission) : List Statement → Bool
  | [] => false
  | s :: rest =>
    s.tooFarBack labels e.location ||
      tooFarBack labels (e.next s (s.outcome labels e.location)) rest

theorem Emission.tooFarBack_iff {labels : LabelTable} {e : Emission}
    {statements : List Statement} :
    tooFarBack labels e statements = true ↔ ∃ (i : Nat) (s : Statement), statements[i]? = some s ∧
      s.tooFarBack labels (behind labels e (statements.take i)).location = true := by
  induction statements generalizing e with
  | nil => simp [tooFarBack]
  | cons s rest ih =>
    rw [tooFarBack, Bool.or_eq_true, ih]
    constructor
    · rintro (h | ⟨i, t, ht, h⟩)
      · exact ⟨0, s, rfl, h⟩
      · exact ⟨i + 1, t, ht, h⟩
    · rintro ⟨i, t, ht, h⟩
      cases i with
      | zero =>
        cases ht
        exact .inl h
      | succ i => exact .inr ⟨i, t, ht, h⟩

namespace Checked

variable {max : Nat} {lines : List Text}

/-- The second pass meets no trap but a branch whose target lies too far back. -/
theorem emit_eq (hmax : ∀ line ∈ lines, Text.size line ≤ max) (labels : LabelTable)
    (e : Emission) :
    emit max labels e lines =
      if e.tooFarBack labels (lines.map Statement.parse) then .error .overflow
      else .ok (e.run labels (lines.map Statement.parse)) := by
  induction lines generalizing e with
  | nil => rfl
  | cons line rest ih =>
    obtain ⟨hline, hrest⟩ := List.forall_mem_cons.1 hmax
    rw [emit, statement_eq hline, ok_bind, outcome_eq, List.map_cons, Emission.tooFarBack,
      Emission.run]
    cases (Statement.parse line).tooFarBack labels e.location with
    | true => rfl
    | false =>
      have hnext : e.next (Statement.parse line)
          ((Statement.parse line).outcome labels e.location) =
          match (Statement.parse line).target? with
          | some address => ⟨address, address⟩
          | none => ⟨e.location + UInt16.ofNat
              ((Statement.parse line).outcome labels e.location).code.length, e.origin⟩ := rfl
      rw [Bool.false_or, if_neg Bool.false_ne_true, ok_bind, target?_eq, ok_bind, hnext]
      dsimp only
      rw [ih hrest, ite_bind]
      rfl

end Checked

/-! ## Sources -/

namespace Text

theorem size_dropLineEnd_le (s : Text) : size (dropLineEnd s) ≤ size s := by
  unfold dropLineEnd
  split
  · next body hs =>
    rw [List.reverse_eq_iff.1 hs, List.reverse_cons, List.reverse_cons, List.append_assoc,
      size_append]
    exact Nat.le_add_right ..
  · next body _ hs =>
    rw [List.reverse_eq_iff.1 hs, List.reverse_cons, size_append]
    exact Nat.le_add_right ..
  · exact Nat.le_refl _

/-- A line is no larger than its text. -/
theorem size_le_of_mem_lines {t l : Text} (h : l ∈ lines t) : size l ≤ size t := by
  obtain ⟨s, hs, rfl⟩ := List.mem_map.1 h
  obtain ⟨front, behind, hsegments⟩ := List.append_of_mem hs
  have hflatten := flatten_segments t
  rw [hsegments, List.flatten_append, List.flatten_cons] at hflatten
  have hsize : size s ≤ size t := by
    rw [← hflatten, size_append, size_append]
    omega
  exact Nat.le_trans (size_dropLineEnd_le s) hsize

end Text

/-- Whether assembly comes to a branch whose target lies too far back. -/
def Assembler.tooFarBack (a : Assembler) : Bool :=
  (Emission.start a.base).tooFarBack a.firstPass.labels a.statements

namespace Checked

/-- Both passes over a source, from a base. -/
def assemble (max : Nat) (base : Word) (source : Text) : Checked Assembly := do
  let v ← survey max (.start base) (Text.lines source)
  let (lines, final) ← emit max v.labels (.start base) (Text.lines source)
  return ⟨final.origin, lines, v.labels⟩

/-- **A source of any characters is assembled without a trap, unless assembly comes to a branch
whose target lies too far back.** -/
theorem assemble_eq {max : Nat} {source : Text} (hmax : Text.size source ≤ max) (base : Word) :
    let a := (Assembler.ofSource source).withOrigin base
    assemble max base source = if a.tooFarBack then .error .overflow else .ok a.assemble := by
  intro a
  have hlines : ∀ line ∈ Text.lines source, Text.size line ≤ max :=
    fun _ hline => Nat.le_trans (Text.size_le_of_mem_lines hline) hmax
  rw [assemble, survey_eq hlines, ok_bind, emit_eq hlines, ite_bind]
  rfl

end Checked

end Mc6800
