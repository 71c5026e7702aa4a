import Mc6800.Proofs.Assembly.Encoding
import Mc6800.Proofs.MachineCode.Loaded
import Mc6800.Proofs.Session.Counter

/-!
# Transfers of control to labels

An assembled program is loaded from the load address on, so a line that assembly put elsewhere is
displaced from its place in the program. A jump to a label carries the address of the label's line
and misses the line's place by the displacement of that line; a branch carries a distance and misses
by the displacement of that line against its own (`Assembler.miss`). Control continues at the label
exactly where nothing is missed by (`Session.transfer_to_label`), so always in a source without
readable origins.
-/

set_option autoImplicit false

namespace Mc6800

/-! ## Addresses in instructions -/

namespace Instruction

variable {i : Instruction} {labels : LabelTable} {operand : Text} {location address : Word}
  {operands : List Byte}

/-- A branch to a label arrives as far from itself as the label is from where it was assembled. -/
theorem pointer_of_encode_relative (hmode : i.mode = .relative)
    (hlabel : labels.get? operand = some address)
    (h : i.encode labels operand location = .ok (i.opcode :: operands)) (c : Cpu) :
    (i.mode.locate c operands).pointer = c.pc + (address - location) := by
  obtain ⟨value, hvalue, haccepts, hcode⟩ := encode_eq_ok_iff.1 h
  obtain rfl := (List.cons.inj hcode).2
  rw [hmode] at hvalue haccepts ⊢
  cases (LabelTable.resolve?_of_get? hlabel).symm.trans hvalue
  rw [Mode.locate_bytes_relative haccepts, Word.ofInt_toNat, Location.pointer]

/-- A jump to a label arrives at the label's address. -/
theorem pointer_of_encode_extended (hmode : i.mode = .extended)
    (hlabel : labels.get? operand = some address)
    (h : i.encode labels operand location = .ok (i.opcode :: operands)) (c : Cpu) :
    (i.mode.locate c operands).pointer = address := by
  obtain ⟨value, hvalue, -, hcode⟩ := encode_eq_ok_iff.1 h
  obtain rfl := (List.cons.inj hcode).2
  rw [hmode] at hvalue ⊢
  cases (LabelTable.resolve?_of_get? hlabel).symm.trans hvalue
  rw [Mode.locate_bytes_of_ne_relative (by decide), Mode.written, Word.ofInt_toNat,
    Location.pointer]

end Instruction

theorem Effect.target?_eq_some_iff {e : Effect} {target : Word} :
    e.target? = some target ↔ e = .branch true target ∨ e = .jump target := by
  cases e with
  | branch taken t => cases taken <;> simp [Effect.target?]
  | jump t => simp [Effect.target?]
  | setA _ | setB _ | setX _ | storeByte _ _ | storeWord _ _ | compare _ _ | fallThrough | nothing
  | notSimulated => simp [Effect.target?]

namespace Cpu

variable {c : Cpu} {i : Instruction} {operands : List Byte} {target : Word}

theorem pointer_of_branch (hi : i ∈ Instruction.all)
    (h : c.effectOf i operands = .branch true target) :
    i.mode = .relative ∧ (i.mode.locate c operands).pointer = target := by
  have hmode : ∀ i ∈ Instruction.all,
      i.mnemonic ∈ [.bra, .bsr, .beq, .bne, .bmi, .bpl] → i.mode = .relative := by
    decide
  have hi := hmode i hi
  unfold effectOf execute at h
  cases hm : i.mnemonic with
  | bra | bsr | beq | bne | bmi | bpl =>
    simp only [hm, branch, Effect.branch.injEq] at h
    exact ⟨hi (by rw [hm]; decide), h.2⟩
  | _ => simp [hm, setA, setB, setX, store, compare] at h

theorem pointer_of_jump (hi : i ∈ Instruction.all) (h : c.effectOf i operands = .jump target) :
    i.mode = .extended ∧ (i.mode.locate c operands).pointer = target := by
  have hmode : ∀ i ∈ Instruction.all, i.mnemonic ∈ [.jmp, .jsr] → i.mode = .extended := by decide
  have hi := hmode i hi
  unfold effectOf execute at h
  cases hm : i.mnemonic with
  | jmp | jsr =>
    simp only [hm, Effect.jump.injEq] at h
    exact ⟨hi (by rw [hm]; decide), h⟩
  | _ => simp [hm, setA, setB, setX, store, compare, branch] at h

end Cpu

/-! ## Labels -/

/-- Line `d` defines this label, and no other line does. -/
def IsOnlyDefinition (statements : List Statement) (name : Text) (d : Nat) : Prop :=
  (∃ s ∈ statements[d]?, s.defines name = true) ∧
    ∀ k < statements.length, ∀ s ∈ statements[k]?, s.defines name = true → k = d

instance (statements : List Statement) (name : Text) (d : Nat) :
    Decidable (IsOnlyDefinition statements name d) :=
  inferInstanceAs (Decidable (_ ∧ _))

theorem IsOnlyDefinition.isLastDefinition {statements : List Statement} {name : Text} {d : Nat}
    (h : IsOnlyDefinition statements name d) : IsLastDefinition statements name d := by
  obtain ⟨⟨s, hs, hdefines⟩, honly⟩ := h
  refine ⟨⟨s, hs, hdefines⟩, fun k t hk ht => ?_⟩
  cases hdefined : t.defines name with
  | false => rfl
  | true =>
    have := honly k (List.getElem?_eq_some_iff.1 ht).1 t ht hdefined
    omega

theorem IsOnlyDefinition.le_length {statements : List Statement} {name : Text} {d : Nat}
    (h : IsOnlyDefinition statements name d) : d ≤ statements.length := by
  obtain ⟨⟨s, hs, -⟩, -⟩ := h
  exact Nat.le_of_lt (List.getElem?_eq_some_iff.1 hs).1

theorem Statement.operandText_parse {line : Text} {operand : Field}
    (h : (parse line).operand? = some operand) : (parse line).operandText = operand.text := by
  have hmem : operand ∈ (parse line).fields := by
    cases hst : parse line with
    | empty | origin _ _ | finish _ | label _ =>
      rw [hst] at h
      cases h
    | operation l mnemonic o =>
      rw [hst] at h
      cases h
      simp [fields]
  rw [operandText, h]
  exact Text.trim_of_isTrimmed (isIn_of_mem_fields operand hmem).trimmed

theorem Statement.encode_of_operand? {line : Text} {operand : Field} {labels : LabelTable}
    {location : Word} {code : List Byte} (hoperand : (parse line).operand? = some operand)
    (h : (parse line).outcome labels location = .bytes code) :
    ∃ i ∈ Instruction.all, i.encode labels operand.text location = .ok code := by
  obtain ⟨i, -, hi, -⟩ := exists_encode_of_outcome_eq_bytes _ h
  obtain ⟨span, houtcome⟩ := exists_outcome_eq_ofEncoding hi
  rw [houtcome, LineOutcome.ofEncoding_eq_bytes_iff, operandText_parse hoperand] at h
  exact ⟨i, mem_all_of_instruction? hi, h⟩

theorem LineOutcome.eq_bytes_of_toCodeLine {o : LineOutcome} {opcode : Byte} {operands : List Byte}
    (h : o.toCodeLine = .bytes opcode operands) : o = .bytes (opcode :: operands) := by
  cases o with
  | empty | fault _ _ => cases h
  | bytes code =>
    cases code with
    | nil => cases h
    | cons opcode' operands' =>
      cases h
      rfl

namespace Assembler

/-- How far behind the place of line `d` an effect of line `i` arrives that transfers control to a
label on line `d`. -/
def miss (a : Assembler) (effect : Effect) (i d : Nat) : Word :=
  match effect with
  | .branch .. => a.displacement d - a.displacement i
  | _ => a.displacement d

theorem isLoadable_assemble {source : Text}
    (hsize : (Mc6800.assemble source).image.length ≤ 65535) : (Mc6800.assemble source).IsLoadable :=
  ⟨isReadable_of_mem_lines source loadAddress, hsize⟩

theorem isFailedOperation_of_hasFaults {a : Assembler} (h : a.assemble.hasFaults = false) :
    ∀ l ∈ a.source, isFailedOperation l = false := by
  intro l hl
  rw [isFailedOperation, Assembly.isFault_eq_false h (List.of_mem_zip hl).2, Bool.and_false]

/-- Without faults a label with one definition stands for the address of its line. -/
theorem get?_labels_of_isOnlyDefinition {a : Assembler} {name : Text} {d : Nat}
    (hfaults : a.assemble.hasFaults = false) (h : IsOnlyDefinition a.statements name d) :
    a.firstPass.labels.get? name = some (a.assemble.addressBefore d + a.displacement d) := by
  rw [← location_emissionAt,
    ← surveyedAddress_eq (isFailedOperation_of_hasFaults hfaults) h.le_length]
  exact Survey.get?_labels_of_isLastDefinition a.base h.isLastDefinition

/-- A line of code in the loaded program is the instruction that its statement asks for. -/
theorem encode_of_loaded {source : Text} (ha : (Mc6800.assemble source).IsLoadable) {k : Nat}
    {st : Statement} {operand : Field} {place : Word} {opcode : Byte} {operands : List Byte}
    (hst : (ofSource source).statements[k]? = some st) (hoperand : st.operand? = some operand)
    (he : (Mc6800.assemble source).loaded.entries[k]? = some ⟨place, .bytes opcode operands⟩) :
    ∃ i ∈ Instruction.all, opcode = i.opcode ∧
      i.encode (ofSource source).firstPass.labels operand.text
        ((ofSource source).emissionAt k).location = .ok (i.opcode :: operands) := by
  obtain ⟨l, hl, hentry⟩ := ha.getElem?_loaded (List.getElem?_eq_some_iff.1 he).1
  rw [he, Option.some.injEq, Entry.mk.injEq] at hentry
  have hcode := LineOutcome.eq_bytes_of_toCodeLine hentry.2.symm
  have hline := (ofSource source).getElem?_assemble hst
  rw [show (ofSource source).assemble.lines[k]? = some l from hl, Option.some.injEq] at hline
  rw [hline] at hcode
  rw [ofSource, ofLines, List.getElem?_map, Option.map_eq_some_iff] at hst
  obtain ⟨line, -, rfl⟩ := hst
  obtain ⟨i, hi, hencode⟩ := Statement.encode_of_operand? hoperand hcode
  obtain ⟨rest, hrest⟩ := Instruction.exists_eq_cons_of_encode hencode
  obtain ⟨rfl, rfl⟩ := List.cons.inj hrest
  exact ⟨i, hi, rfl, hencode⟩

/-- A transfer of line `k` to a label on line `d` goes to the place of line `d` but for the miss. -/
theorem target_eq {a : Assembler} {c : Cpu} {i : Instruction} {operands : List Byte} {name : Text}
    {target : Word} {k d : Nat} (hi : i ∈ Instruction.all)
    (hencode : i.encode a.firstPass.labels name (a.emissionAt k).location =
      .ok (i.opcode :: operands))
    (hlabel : a.firstPass.labels.get? name = some (a.assemble.addressBefore d + a.displacement d))
    (hpc : c.pc = a.assemble.addressBefore k)
    (htarget : (c.effectOf i operands).target? = some target) :
    target = a.assemble.addressBefore d + a.miss (c.effectOf i operands) k d := by
  rcases Effect.target?_eq_some_iff.1 htarget with heffect | heffect
  · obtain ⟨hmode, hpointer⟩ := Cpu.pointer_of_branch hi heffect
    rw [Instruction.pointer_of_encode_relative hmode hlabel hencode, hpc,
      location_emissionAt] at hpointer
    rw [← hpointer, heffect, miss]
    grind
  · obtain ⟨hmode, hpointer⟩ := Cpu.pointer_of_jump hi heffect
    rw [Instruction.pointer_of_encode_extended hmode hlabel hencode] at hpointer
    rw [← hpointer, heffect]
    rfl

end Assembler

/-! ## One step -/

namespace Session

variable {a : Assembly} {s : Session} {d : Nat} {target : Word}

/-- Control has gone to the first code from line `d` on, or to the end if there is none. -/
def ContinuesAt (a : Assembly) (d : Nat) (s : Session) : Prop :=
  (a.IsNextCode d s.cursor ∧ s.status = .running) ∨
    ((∀ k, d ≤ k → ¬a.HasCode k) ∧ s.status = .completed)

/-- A transfer of control leads to the line that is found from its target, or to the end. -/
theorem step_of_target? (h : s.step.1.target? = some target) :
    (s.program.indexOf? s.search target = some s.step.2.cursor ∧ s.step.2.status = .running) ∨
      (s.program.indexOf? s.search target = none ∧ s.step.2.status = .completed) := by
  have hnotice : s.step.1.isNotice = false := by
    by_contra hnotice
    rw [(Trace.of_isNotice (Bool.of_not_eq_false hnotice)).2.2] at h
    cases h
  obtain ⟨e, hstatus, hlimit, he, -⟩ := exists_line_of_not_isNotice hnotice
  have hstep := step_eq_of_line hstatus hlimit he
  rw [hstep] at h ⊢
  have hcursor : s.cursorBehind (s.carryOut e.line).1 =
      (s.program.indexOf? s.search target).getD s.program.size := by
    rw [cursorBehind, h]
  dsimp only
  rw [hcursor]
  cases hindex : s.program.indexOf? s.search target with
  | none => exact .inr ⟨rfl, if_neg (Nat.lt_irrefl _)⟩
  | some k => exact .inl ⟨rfl, if_pos (Program.lt_size_of_indexFrom? hindex)⟩

/-- A transfer continues at line `d` if it goes to where that is loaded, or if there is no code from
there on and none at its target. -/
theorem continuesAt_iff (ha : a.IsLoadable) (hprogram : s.program = a.loaded)
    (h : s.step.1.target? = some target) :
    s.step.2.ContinuesAt a d ↔ target = a.addressBefore d ∨
      ((∀ k, d ≤ k → ¬a.HasCode k) ∧ ∀ k, a.HasCode k → a.addressBefore k ≠ target) := by
  have hstep := step_of_target? h
  rw [hprogram] at hstep
  constructor
  · rintro (⟨hnext, hrunning⟩ | ⟨hnone, hcompleted⟩)
    · rcases hstep with ⟨hindex, -⟩ | ⟨-, hcompleted⟩
      · obtain ⟨-, haddress⟩ := ha.indexOf?_loaded_iff.1 hindex
        exact .inl (by rw [← haddress, hnext.addressBefore_eq])
      · exact absurd (hrunning.symm.trans hcompleted) (by decide)
    · rcases hstep with ⟨-, hrunning⟩ | ⟨hindex, -⟩
      · exact absurd (hrunning.symm.trans hcompleted) (by decide)
      · exact .inr ⟨hnone, ha.indexOf?_loaded_eq_none_iff.1 hindex⟩
  · rintro (rfl | ⟨hnone, htarget⟩)
    · by_cases hexists : ∃ k, d ≤ k ∧ a.HasCode k
      · obtain ⟨k, hnext⟩ := Assembly.exists_isNextCode hexists
        rw [ha.indexOf?_of_isNextCode hnext] at hstep
        obtain ⟨hindex, hrunning⟩ | ⟨hindex, -⟩ := hstep
        · cases hindex
          exact .inl ⟨hnext, hrunning⟩
        · cases hindex
      · have hnone : ∀ k, d ≤ k → ¬a.HasCode k := fun k hk hcode => hexists ⟨k, hk, hcode⟩
        rw [ha.indexOf?_of_no_code hnone] at hstep
        obtain ⟨hindex, -⟩ | ⟨-, hcompleted⟩ := hstep
        · cases hindex
        · exact .inr ⟨hnone, hcompleted⟩
    · rw [ha.indexOf?_loaded_eq_none_iff.2 htarget] at hstep
      obtain ⟨hindex, -⟩ | ⟨-, hcompleted⟩ := hstep
      · cases hindex
      · exact .inr ⟨hnone, hcompleted⟩

/-! ## Many steps -/

theorem isWhole_loaded {source : Text} (hfaults : (assemble source).hasFaults = false)
    (ha : (assemble source).IsLoadable) :
    ∀ e ∈ (assemble source).loaded.entries, e.line.IsWhole := by
  intro e he
  obtain ⟨k, hk⟩ := List.mem_iff_getElem?.1 he
  obtain ⟨l, hl, hentry⟩ := ha.getElem?_loaded (List.getElem?_eq_some_iff.1 hk).1
  rw [hk, Option.some.injEq] at hentry
  rw [hentry]
  have hmem := List.mem_of_getElem? hl
  cases ho : l.outcome with
  | empty => trivial
  | fault f span =>
    have hfault := Assembly.isFault_eq_false hfaults hmem
    rw [ho] at hfault
    cases hfault
  | bytes code =>
    obtain ⟨st, -, location, hst⟩ := Assembler.exists_statement_of_mem_lines _ hmem
    obtain ⟨i, operands, rfl, hdecode, hlength⟩ :=
      st.exists_decode?_of_outcome_eq_bytes (hst.symm.trans ho)
    intro j hj
    rw [hdecode] at hj
    cases hj
    exact hlength

/-- Without faults the program counter is at the place of the line under the cursor. -/
theorem pc_stepFor_load {source : Text} (hfaults : (assemble source).hasFaults = false)
    (ha : (assemble source).IsLoadable) (s : Session) (n : Nat) :
    let final := (stepFor n (s.load (assemble source).machineCode)).2
    final.status = .running → final.cursor < final.program.size →
      final.cpu.pc = (assemble source).addressBefore final.cursor := by
  intro final hstatus hcursor
  have hprogram : final.program = (assemble source).loaded := program_stepFor ..
  rw [hprogram] at hcursor
  obtain ⟨l, -, he⟩ := ha.getElem?_loaded hcursor
  rw [← hprogram] at he
  have hlead : (s.load (assemble source).machineCode).lead n = 0 :=
    lead_eq_zero (s := s.load (assemble source).machineCode) (isWhole_loaded hfaults ha) n
  have hleads := leadsBy_stepFor (leadsBy_load s (assemble source).machineCode) n
  rw [hlead] at hleads
  rw [hleads.counter hstatus _ he, UInt16.add_zero]

/-- **Transfers of control to labels.** Control is transferred, after any number of steps and under
any ceiling, by an instruction whose operand is a label that line `d` alone defines. Then it goes to
the place of line `d` but for the miss. It continues at the first code from line `d` on, or ends if
there is none, exactly if nothing is missed by, or if there is neither code from line `d` on nor at
the target. A jump misses nothing if the origins in front of the label go to where the lines behind
them are loaded, and a branch if there is no readable origin between it and the label. -/
theorem transfer_to_label (s : Session) (source : Text)
    (hfaults : (assemble source).hasFaults = false)
    (hsize : (assemble source).image.length ≤ 65535) (n : Nat) :
    let assembler := Assembler.ofSource source
    let a := assemble source
    let final := (stepFor n (s.load a.machineCode)).2
    ∀ pc mnemonic effect target st operand d,
      final.step.1 = .executed pc mnemonic effect → effect.target? = some target →
      assembler.statements[final.cursor]? = some st → st.operand? = some operand →
      IsOnlyDefinition assembler.statements operand.text d →
        target = a.addressBefore d + assembler.miss effect final.cursor d ∧
        (final.step.2.ContinuesAt a d ↔ assembler.miss effect final.cursor d = 0 ∨
          ((∀ k, d ≤ k → ¬a.HasCode k) ∧ ∀ k, a.HasCode k → a.addressBefore k ≠ target)) ∧
        (effect = .jump target → assembler.OriginsInPlace d → final.step.2.ContinuesAt a d) ∧
        (effect = .branch true target → assembler.NoOriginBetween final.cursor d →
          final.step.2.ContinuesAt a d) := by
  intro assembler a final pc mnemonic effect target st operand d hexecuted htarget hst hoperand hd
  have ha : a.IsLoadable := Assembler.isLoadable_assemble hsize
  have hprogram : final.program = a.loaded := program_stepFor ..
  have hlabel := Assembler.get?_labels_of_isOnlyDefinition hfaults hd
  -- What is executed is the code of the statement with the number of the cursor.
  obtain ⟨place, opcode, operands, i, hstatus, he, hdecode, -, rfl⟩ :=
    exists_instruction_of_executed hexecuted
  have hpc : final.cpu.pc = a.addressBefore final.cursor :=
    pc_stepFor_load hfaults ha s n hstatus (List.getElem?_eq_some_iff.1 he).1
  rw [hprogram] at he
  obtain ⟨i', hi, rfl, hencode⟩ := Assembler.encode_of_loaded ha hst hoperand he
  rw [Instruction.decode?_opcode hi, Option.some.injEq] at hdecode
  subst hdecode
  have hmiss := Assembler.target_eq hi hencode hlabel hpc htarget
  have htransfer : final.step.1.target? = some target := by
    rw [hexecuted]
    exact htarget
  have hiff := continuesAt_iff (d := d) ha hprogram htransfer
  have hzero : target = a.addressBefore d ↔
      assembler.miss (final.cpu.effectOf i' operands) final.cursor d = 0 := by
    rw [hmiss]
    exact UInt16.add_eq_left
  rw [hzero] at hiff
  refine ⟨hmiss, hiff, fun hjump horigins => ?_, fun hbranch hnone => ?_⟩
  · rw [hiff, hjump]
    exact .inl (Assembler.displacement_eq_zero rfl hd.le_length horigins)
  · have hcursor : final.cursor ≤ assembler.statements.length :=
      Nat.le_of_lt (List.getElem?_eq_some_iff.1 hst).1
    have hequal := Assembler.displacement_eq hcursor hd.le_length hnone
    rw [hiff, hbranch]
    exact .inl (by rw [Assembler.miss, hequal, UInt16.sub_self])

/-- A branch to its own line goes on behind an origin, which displaces branch and label alike. -/
theorem transfer_to_label_displaced :
    let source : Text := "ORG $2000\nHERE BRA HERE"
    let a := assemble source
    let final := (stepFor 1 ((idle .byHalves).load a.machineCode)).2
    a.hasFaults = false ∧ final.step.1 = .executed 0xC000 .bra (.branch true 0xC000) ∧
      final.step.2.ContinuesAt a 1 := by
  intro source a final
  have hfaults : a.hasFaults = false := by decide +kernel
  have hstep : final.step.1 = .executed 0xC000 .bra (.branch true 0xC000) := by decide +kernel
  obtain ⟨-, hiff, -, -⟩ := transfer_to_label (idle .byHalves) source hfaults
    (by decide +kernel) 1 0xC000 .bra (.branch true 0xC000) 0xC000
    (.operation (some ⟨"HERE", 0⟩) ⟨"BRA", 5⟩ (some ⟨"HERE", 9⟩)) ⟨"HERE", 9⟩ 1 hstep rfl
    (by decide +kernel) rfl (by decide +kernel)
  exact ⟨hfaults, hstep, hiff.2 (.inl (by decide +kernel))⟩

/-- A jump to its own line ends there, since it goes to where the line was assembled. -/
theorem transfer_to_label_misses :
    let source : Text := "ORG $2000\nHERE JMP HERE"
    let a := assemble source
    let final := (stepFor 1 ((idle .byHalves).load a.machineCode)).2
    (a.hasFaults = false ∧ a.image.length ≤ 65535 ∧
      final.step.1 = .executed 0xC000 .jmp (.jump 0x2000) ∧
      (Assembler.ofSource source).statements[final.cursor]? =
        some (.operation (some ⟨"HERE", 0⟩) ⟨"JMP", 5⟩ (some ⟨"HERE", 9⟩)) ∧
      IsOnlyDefinition (Assembler.ofSource source).statements "HERE" 1) ∧
      ¬final.step.2.ContinuesAt a 1 := by
  intro source a final
  have hstop : final.step.2.status = .completed ∧
      a.lines[1]? = some ⟨0x2000, .bytes [0x7E, 0x20, 0x00]⟩ := by decide +kernel
  obtain ⟨hstatus, hline⟩ := hstop
  refine ⟨by decide +kernel, ?_⟩
  rintro (⟨-, hrunning⟩ | ⟨hnone, -⟩)
  · exact absurd (hstatus.symm.trans hrunning) (by decide)
  · exact hnone 1 (Nat.le_refl 1) ⟨_, hline, by decide⟩

end Session

end Mc6800
