import Mc6800.Proofs.Assembly.Counters
import Mc6800.Proofs.Operand.Shapes
import Mc6800.Proofs.Source.Scanning

/-!
# References by name and by address

A label may be written as its name or as its address. The two have different shapes, but no mnemonic
tells them apart (`Instruction.find?_relative`), and they have the same value, so an instruction is
sized, placed and encoded alike with either (`Statement.outcome_exchange`). Both passes see of a
statement only its label, its target, its size and its code (`Survey.ofStatements_exchange`,
`Emission.run_exchange`), so nothing else of an assembly changes
(`assemble_with_address_for_name`).
-/

set_option autoImplicit false

namespace Mc6800

/-! ## Instructions -/

namespace Instruction

variable {i : Instruction} {labels : LabelTable} {o p word : Text}

theorem find_relative_or_extended (m : Mnemonic) :
    find m .relative = none ∨ find m .extended = none := by
  have h : ∀ m ∈ Mnemonic.all, find m .relative = none ∨ find m .extended = none := by
    decide +kernel
  exact h m m.mem_all

/-- Which of its two readings an operand is tried in first does not matter. -/
theorem find?_relative (word : Text) : find? word .relative = find? word .extended := by
  unfold find?
  cases Mnemonic.ofWord? word with
  | none => rfl
  | some m =>
    rcases find_relative_or_extended m with h | h
    · simp [Mode.readings, List.findSome?_cons, h]
    · simp [Mode.readings, List.findSome?_cons, h]

theorem mode_mem_readings {shape : Mode} (h : find? word shape = some i) :
    i.mode ∈ shape.readings := by
  unfold find? at h
  split at h
  · cases h
  · obtain ⟨mode, hmode, hfind⟩ := List.exists_of_findSome?_eq_some h
    rwa [mode_of_find hfind]

theorem mode_of_find?_relative (h : find? word .relative = some i) :
    i.mode = .relative ∨ i.mode = .extended := by
  simpa [Mode.readings] using mode_mem_readings h

/-- The fault of a value blames the operand, the bytes do not depend on it. -/
theorem toOption_encode_congr (location : Word)
    (h : labels.operandValue? i.mode o = labels.operandValue? i.mode p) :
    (i.encode labels o location).toOption = (i.encode labels p location).toOption := by
  rw [encode_eq, encode_eq, h]
  cases labels.operandValue? i.mode p with
  | none => rfl
  | some value =>
    dsimp only
    split <;> rfl

end Instruction

/-! ## Statements -/

namespace Statement

variable {l : Option Field} {m f g : Field} {labels : LabelTable} {address : Word}

theorem instructionOf_exchange (hname : Operand.isName f.text = true)
    (hspells : Operand.Spells g.text address) :
    instructionOf m (some g) = instructionOf m (some f) := by
  simp only [instructionOf, Option.map_some, hspells.ofOperand, Operand.ofOperand_of_isName hname,
    Instruction.find?_relative]

/-- Two operands of one value have the same code, if they make the same instruction. -/
theorem outcome_congr (hsame : instructionOf m (some g) = instructionOf m (some f))
    (hf : Text.IsTrimmed f.text) (hg : Text.IsTrimmed g.text)
    (hvalue : ∀ i, instructionOf m (some f) = some i →
      labels.operandValue? i.mode g.text = labels.operandValue? i.mode f.text)
    (location : Word) :
    ((operation l m (some g)).outcome labels location).code =
        ((operation l m (some f)).outcome labels location).code ∧
      ((operation l m (some g)).outcome labels location).isFault =
        ((operation l m (some f)).outcome labels location).isFault := by
  cases hi : instructionOf m (some f) with
  | none =>
    have hf : (operation l m (some f)).instruction? = none := hi
    have hg : (operation l m (some g)).instruction? = none := hsame.trans hi
    simp only [outcome, hf, hg, and_self]
  | some i =>
    have hencode := Instruction.toOption_encode_congr location (hvalue i hi)
    rw [outcome_operation_of_isTrimmed hi hf, outcome_operation_of_isTrimmed (hsame.trans hi) hg]
    simp only [LineOutcome.code_ofEncoding, LineOutcome.isFault_ofEncoding, hencode, and_self]

/-- An instruction has the same code with a name and with the address that it stands for. -/
theorem outcome_exchange (hname : Operand.isName f.text = true)
    (haddress : labels.get? f.text = some address) (hspells : Operand.Spells g.text address)
    (hfree : labels.get? g.text = none) (location : Word) :
    ((operation l m (some g)).outcome labels location).code =
        ((operation l m (some f)).outcome labels location).code ∧
      ((operation l m (some g)).outcome labels location).isFault =
        ((operation l m (some f)).outcome labels location).isFault := by
  refine outcome_congr (instructionOf_exchange hname hspells)
    (Operand.isWord_of_isName hname).isTrimmed hspells.isWord.isTrimmed (fun i hi => ?_) location
  have hmode : i.mode = .relative ∨ i.mode = .extended := by
    rw [instructionOf, Option.map_some, Operand.ofOperand_of_isName hname] at hi
    exact Instruction.mode_of_find?_relative hi
  have hf : labels.resolve? f.text = some (address.toNat : Int) := by
    rw [LabelTable.resolve?, haddress]
  have hg : labels.resolve? g.text = some (address.toNat : Int) := by
    rw [LabelTable.resolve?, hfree]
    exact hspells.value?
  rcases hmode with h | h
  · simp only [h, LabelTable.operandValue?, Operand.core, hf, hg]
  · simp only [h, LabelTable.operandValue?, Operand.core, hf, hg]

end Statement

/-! ## Passes -/

/-- The first pass sees of a statement its label, its target and its size. -/
theorem Survey.ofStatements_exchange (base : Word) (front rest : List Statement) {s t : Statement}
    (hlabel : t.labelName? = s.labelName?) (htarget : t.target? = s.target?)
    (hsize : sizeOf t = sizeOf s) :
    ofStatements base (front ++ t :: rest) = ofStatements base (front ++ s :: rest) := by
  have hnext : ∀ v : Survey, v.next t = v.next s := by
    intro v
    rw [next, next, define_congr hlabel, htarget, hsize]
  simp only [ofStatements, List.foldl_append, List.foldl_cons, hnext]

/-- The second pass sees of a statement its target and its code. -/
theorem Emission.run_exchange (labels : LabelTable) (e : Emission) (front rest : List Statement)
    {s t : Statement} (htarget : t.target? = s.target?)
    (hcode : ∀ location, (t.outcome labels location).code = (s.outcome labels location).code) :
    ∃ above location below final,
      run labels e (front ++ s :: rest) =
        (above ++ ⟨location, s.outcome labels location⟩ :: below, final) ∧
      run labels e (front ++ t :: rest) =
        (above ++ ⟨location, t.outcome labels location⟩ :: below, final) := by
  have hnext : ∀ e : Emission, e.next t (t.outcome labels e.location) =
      e.next s (s.outcome labels e.location) := by
    intro e
    rw [next, next, htarget, hcode]
  have hplace := run_append labels e front
  generalize (run labels e front).1 = above at hplace
  generalize behind labels e front = place at hplace
  refine ⟨above, place.location,
    (run labels (place.next s (s.outcome labels place.location)) rest).1,
    (run labels (place.next s (s.outcome labels place.location)) rest).2, ?_, ?_⟩
  · rw [hplace]
    rfl
  · rw [hplace, ← hnext]
    rfl

/-! ## Assemblies -/

namespace Assembler

/-- The assembler for these statements. -/
def ofStatements (base : Word) (statements : List Statement) : Assembler :=
  ⟨statements, base, base, .empty⟩

theorem withOrigin_ofLines (lines : List Text) (base : Word) :
    (ofLines lines).withOrigin base = ofStatements base (lines.map Statement.parse) := rfl

/-- Of all that an assembly tells about its statements, both passes together see no more than the
labels, the targets, the sizes, the code and the failures. -/
theorem assemble_exchange (base : Word) (front rest : List Statement) {s t : Statement}
    (hlabel : t.labelName? = s.labelName?) (htarget : t.target? = s.target?)
    (hsize : Survey.sizeOf t = Survey.sizeOf s)
    (houtcome : ∀ location,
      let labels := (ofStatements base (front ++ s :: rest)).firstPass.labels
      (t.outcome labels location).code = (s.outcome labels location).code ∧
        (t.outcome labels location).isFault = (s.outcome labels location).isFault) :
    let x := (ofStatements base (front ++ s :: rest)).assemble
    let y := (ofStatements base (front ++ t :: rest)).assemble
    y.labels = x.labels ∧ y.origin = x.origin ∧
      y.lines.map (fun l => (l.address, l.outcome.code, l.outcome.isFault)) =
        x.lines.map fun l => (l.address, l.outcome.code, l.outcome.isFault) := by
  have hsurvey := Survey.ofStatements_exchange base front rest hlabel htarget hsize
  simp only [firstPass, ofStatements] at houtcome
  obtain ⟨above, location, below, final, hs, ht⟩ :=
    Emission.run_exchange (Survey.ofStatements base (front ++ s :: rest)).labels
      (Emission.start base) front rest htarget fun location => (houtcome location).1
  simp only [assemble, secondPass, firstPass, ofStatements, hsurvey, hs, ht, List.map_append,
    List.map_cons, houtcome location, and_self]

end Assembler

/-- **A name and its address are interchangeable.** If an instruction's operand is a name that the
first pass has given an address, the digits of the address may stand in its place, wherever the
label is defined. The labels, the origin, every line's address and code and the failing lines are
the same. -/
theorem assemble_with_address_for_name (base : Word) (front rest : List Text) {line : Text}
    {label : Option Field} {mnemonic operand : Field} {address : Word} {spelling : Text}
    (hline : Statement.parse line = .operation label mnemonic (some operand))
    (hname : Operand.isName operand.text = true)
    (haddress : ((Assembler.ofLines (front ++ line :: rest)).withOrigin base).firstPass.labels.get?
      operand.text = some address)
    (hspells : Operand.Spells spelling address)
    (hfree : ((Assembler.ofLines (front ++ line :: rest)).withOrigin base).firstPass.labels.get?
      spelling = none) :
    ∃ before after, line = before ++ (operand.text ++ after) ∧ operand.start = Text.size before ∧
      let byName := ((Assembler.ofLines (front ++ line :: rest)).withOrigin base).assemble
      let byAddress := ((Assembler.ofLines
        (front ++ (before ++ (spelling ++ after)) :: rest)).withOrigin base).assemble
      byAddress.labels = byName.labels ∧ byAddress.origin = byName.origin ∧
      byAddress.lines.map (fun l => (l.address, l.outcome.code, l.outcome.isFault)) =
        byName.lines.map fun l => (l.address, l.outcome.code, l.outcome.isFault) := by
  have hin : operand.IsIn line :=
    Statement.isIn_of_mem_fields operand (by simp [hline, Statement.fields])
  obtain ⟨⟨before, after, hplace, hstart⟩, -⟩ := hin
  rw [List.append_assoc] at hplace
  refine ⟨before, after, hplace, hstart, ?_⟩
  have hsame : ∀ start, Statement.instructionOf mnemonic (some ⟨spelling, start⟩) =
      Statement.instructionOf mnemonic (some operand) := fun _ =>
    Statement.instructionOf_exchange hname hspells
  have hread : Statement.parse (before ++ (operand.text ++ after)) =
      .operation label mnemonic (some ⟨operand.text, Text.size before⟩) := by
    rw [← hplace, hline, ← hstart]
  have hparse : Statement.parse (before ++ (spelling ++ after)) =
      .operation label mnemonic (some ⟨spelling, Text.size before⟩) :=
    Statement.parse_exchange hread hspells.isWord.isTrimmed (fun _ => hspells.isWord)
      hspells.not_mem.2 (by rw [hsame, ← hstart])
  simp only [Assembler.withOrigin_ofLines, List.map_append, List.map_cons, hline, hparse]
    at haddress hfree ⊢
  refine Assembler.assemble_exchange base _ _ rfl rfl ?_
    (Statement.outcome_exchange hname haddress hspells hfree)
  simp only [Survey.sizeOf, Statement.instruction?, hsame]

/-- A forward reference in a line with a label and a comment. -/
theorem assemble_with_address_for_forward_name :
    let byName := ((Assembler.ofLines
      ["NOP", "LOOP BNE Done ; forward", "BRA LOOP", "DONE RTS"]).withOrigin 0x1FF0).assemble
    let byAddress := ((Assembler.ofLines
      ["NOP", "LOOP BNE $1FF5 ; forward", "BRA LOOP", "DONE RTS"]).withOrigin 0x1FF0).assemble
    Operand.isName "Done" = true ∧ byName.labels.get? "Done" = some 0x1FF5 ∧
      Operand.Spells "$1FF5" 0x1FF5 ∧ byName.labels.get? "$1FF5" = none ∧
      byAddress.labels = byName.labels ∧ byAddress.origin = byName.origin ∧
      byAddress.lines.map (fun l => (l.address, l.outcome.code, l.outcome.isFault)) =
        byName.lines.map fun l => (l.address, l.outcome.code, l.outcome.isFault) := by
  have hline : Statement.parse "LOOP BNE Done ; forward" =
      .operation (some ⟨"LOOP", 0⟩) ⟨"BNE", 5⟩ (some ⟨"Done", 9⟩) := by decide +kernel
  have hspells : Operand.Spells "$1FF5" 0x1FF5 := Operand.spells_ofWord 0x1FF5
  obtain ⟨before, after, hplace, hstart, hsame⟩ :=
    assemble_with_address_for_name 0x1FF0 ["NOP"] ["BRA LOOP", "DONE RTS"] hline
      (by decide +kernel) (by decide +kernel) hspells (by decide +kernel)
  have hplace : ("LOOP BNE " : Text) ++ ("Done" ++ " ; forward") = before ++ ("Done" ++ after) :=
    hplace
  obtain ⟨rfl, hafter⟩ := Text.append_inj_of_size hplace hstart
  obtain rfl := List.append_cancel_left hafter
  exact ⟨by decide +kernel, by decide +kernel, hspells, by decide +kernel, hsame⟩

end Mc6800
