import Mc6800.Proofs.Session.Steps

/-!
# The program counter and the line under the cursor

A line that is carried out moves the addresses by its bytes, and the program counter by the length
of its instruction. The two differ where bytes are missing or left over (`CodeLine.excess`). So the
program counter leads the address of the line under the cursor by the excess of all lines since
control was last transferred (`Session.counter_eq_address_add_lead`), and is that address as long as
every instruction has the bytes that it asks for.
-/

set_option autoImplicit false

namespace Mc6800

/-! ## Lines -/

namespace CodeLine

/-- What the program counter moves past a line with an instruction beyond the bytes of the line. -/
def excess : CodeLine → Word
  | bytes opcode operands =>
    match Instruction.decode? opcode with
    | some i => UInt16.ofNat i.length - UInt16.ofNat (operands.length + 1)
    | none => 0
  | blank | undecodable _ => 0

/-- Whether a line with an instruction holds exactly the bytes of that. -/
def IsWhole : CodeLine → Prop
  | bytes opcode operands => ∀ i ∈ Instruction.decode? opcode, operands.length + 1 = i.length
  | blank | undecodable _ => True

instance : DecidablePred IsWhole
  | bytes _ _ => inferInstanceAs (Decidable (∀ i ∈ Instruction.decode? _, _))
  | blank | undecodable _ => isTrue trivial

theorem IsWhole.excess_eq_zero {line : CodeLine} (h : line.IsWhole) : line.excess = 0 := by
  cases line with
  | blank | undecodable _ => rfl
  | bytes opcode operands =>
    simp only [excess]
    split
    · next i hdecode => rw [h i hdecode, UInt16.sub_self]
    · rfl

end CodeLine

/-! ## Programs -/

namespace Program

/-- Every line lies behind the bytes of the line in front of it. -/
def IsLaidOut (p : Program) : Prop :=
  ∀ i e next, p.entries[i]? = some e → p.entries[i + 1]? = some next →
    next.address = e.address + UInt16.ofNat e.line.code.length

theorem isLaidOut_place (base : Word) (lines : List CodeLine) : IsLaidOut ⟨place base lines⟩ := by
  intro i e next he hnext
  induction lines generalizing base i with
  | nil => cases he
  | cons line rest ih =>
    cases i with
    | succ i => exact ih _ i he hnext
    | zero =>
      cases he
      cases rest with
      | nil => cases hnext
      | cons line' rest =>
        cases hnext
        rfl

theorem isLaidOut_parse (text : Text) (base : Word) : (parse text base).IsLaidOut :=
  isLaidOut_place base _

end Program

namespace Session

variable {s : Session}

/-! ## One step -/

/-- Carrying out a line moves the program counter to the target of a transfer, or past the bytes of
the line and its excess. -/
theorem pc_carryOut (s : Session) (line : CodeLine) :
    (s.carryOut line).2.cpu.pc = (s.carryOut line).1.target?.getD
      (s.cpu.pc + UInt16.ofNat line.code.length + line.excess) := by
  cases line with
  | blank | undecodable _ =>
    show s.cpu.pc = s.cpu.pc + 0 + 0
    rw [UInt16.add_zero, UInt16.add_zero]
  | bytes opcode operands =>
    cases hdecode : Instruction.decode? opcode with
    | none =>
      simp only [carryOut, CodeLine.excess, hdecode]
      exact (UInt16.add_zero _).symm
    | some i =>
      simp only [carryOut, CodeLine.excess, hdecode, CodeLine.code, List.length_cons]
      -- Past the bytes and the excess is past the length of the instruction.
      have hlength : s.cpu.pc + UInt16.ofNat (operands.length + 1) +
          (UInt16.ofNat i.length - UInt16.ofNat (operands.length + 1)) =
            s.cpu.pc + UInt16.ofNat i.length := by grind
      rw [hlength, Cpu.pc_advance, Cpu.pc_execute]
      rfl

/-- The excess of the line under the cursor. -/
def excess (s : Session) : Word :=
  match s.program.entries[s.cursor]? with
  | some e => e.line.excess
  | none => 0

/-- What the program counter leads by behind a step: nothing where control was transferred. -/
def leadBehind (s : Session) (lead : Word) : Word :=
  if s.step.1.target?.isSome then 0 else lead + s.excess

/-- The program counter of a running session leads the line under its cursor by `lead`. -/
structure LeadsBy (lead : Word) (s : Session) : Prop where
  laidOut : s.program.IsLaidOut
  counter : s.status = .running → ∀ e, s.program.entries[s.cursor]? = some e →
    s.cpu.pc = e.address + lead

theorem LeadsBy.of_status_ne {lead : Word} (h : s.program.IsLaidOut)
    (hstatus : s.status ≠ .running) : s.LeadsBy lead :=
  ⟨h, fun hrunning => absurd hrunning hstatus⟩

/-- **One step** adds the excess of its line to the lead, or takes the lead away. -/
theorem LeadsBy.step {lead : Word} (h : s.LeadsBy lead) : s.step.2.LeadsBy (s.leadBehind lead) := by
  rcases s.step_cases with ⟨hstatus, -, hs⟩ | ⟨-, -, hs⟩ | ⟨-, -, hs⟩ | ⟨e, hstatus, hlimit, he, -⟩
  · rw [hs]
    exact .of_status_ne h.laidOut hstatus
  · rw [hs]
    exact .of_status_ne h.laidOut (by simp)
  · rw [hs]
    exact .of_status_ne h.laidOut (by simp)
  · have hpc := s.pc_carryOut e.line
    have hexcess : s.excess = e.line.excess := by simp only [excess, he]
    have hstep := step_eq_of_line hstatus hlimit he
    unfold leadBehind
    rw [hexcess, hstep]
    refine ⟨h.laidOut, fun _ next hnext => ?_⟩
    dsimp only at hnext ⊢
    rw [hpc]
    unfold cursorBehind at hnext
    cases htarget : (s.carryOut e.line).1.target? with
    | some target =>
      rw [htarget] at hnext
      dsimp only at hnext
      cases hindex : s.program.indexOf? s.search target with
      | some k =>
        rw [hindex, Option.getD_some] at hnext
        have hbegins := Program.beginsAt_of_indexFrom? hindex hnext
        simp [hbegins.1]
      | none =>
        rw [hindex, Option.getD_none, Program.size, List.getElem?_eq_none (Nat.le_refl _)] at hnext
        cases hnext
    | none =>
      rw [htarget] at hnext
      rw [h.laidOut _ e next he hnext, h.counter hstatus e he]
      simp only [Option.getD_none, Option.isSome_none, Bool.false_eq_true, if_false]
      grind

/-! ## Many steps -/

/-- What the program counter leads by behind `n` steps: the excess of the lines that they carried
out since control was last transferred. -/
def lead (s : Session) : Nat → Word
  | 0 => 0
  | n + 1 => (stepFor n s).2.leadBehind (s.lead n)

/-- Any number of steps add up their lead. -/
theorem leadsBy_stepFor (h : s.LeadsBy 0) (n : Nat) : (stepFor n s).2.LeadsBy (s.lead n) := by
  induction n with
  | zero => exact h
  | succ n ih =>
    rw [stepFor_succ]
    exact ih.step

theorem leadsBy_load (s : Session) (code : Text) : (s.load code).LeadsBy 0 := by
  refine ⟨Program.isLaidOut_parse code loadAddress, fun _ e he => ?_⟩
  have hfirst : (Program.place loadAddress ((Text.lines code).map CodeLine.parse))[0]? =
      some e := he
  cases hlines : (Text.lines code).map CodeLine.parse with
  | nil =>
    rw [hlines] at hfirst
    cases hfirst
  | cons line rest =>
    rw [hlines] at hfirst
    cases hfirst
    exact (UInt16.add_zero _).symm

theorem lead_eq_zero (h : ∀ e ∈ s.program.entries, e.line.IsWhole) (n : Nat) : s.lead n = 0 := by
  induction n with
  | zero => rfl
  | succ n ih =>
    have hexcess : (stepFor n s).2.excess = 0 := by
      unfold excess
      split
      · next e he =>
        rw [program_stepFor] at he
        exact (h e (List.mem_of_getElem? he)).excess_eq_zero
      · rfl
    rw [lead, leadBehind, ih, hexcess]
    split <;> rfl

/-- **The program counter and the line under the cursor.** Behind any number of steps the program
counter of a running session leads the address of the line under its cursor by the excess of the
lines carried out since control was last transferred, and so is that address exactly when these add
up to nothing. In particular it always is where every instruction has the bytes that it asks for;
lines that are blank, no code or of an unknown opcode may hold what they like. -/
theorem counter_eq_address_add_lead (s : Session) (code : Text) (n : Nat) :
    let start := s.load code
    let final := (stepFor n start).2
    final.status = .running → ∀ e, final.program.entries[final.cursor]? = some e →
      final.cpu.pc = e.address + start.lead n ∧
      (final.cpu.pc = e.address ↔ start.lead n = 0) ∧
      ((∀ line ∈ start.program.entries, line.line.IsWhole) → final.cpu.pc = e.address) := by
  intro start final hstatus e he
  have hcounter : final.cpu.pc = e.address + start.lead n :=
    (leadsBy_stepFor (leadsBy_load s code) n).counter hstatus e he
  refine ⟨hcounter, ?_, fun hwhole => ?_⟩
  · rw [hcounter]
    exact UInt16.add_eq_left
  · rw [hcounter, lead_eq_zero hwhole, UInt16.add_zero]

/-- In a loop over a blank line the program counter is where the cursor is. -/
theorem counter_eq_address_of_whole_lines :
    let code : Text := "C6 02\n5A\n\n26 FC"
    let start := (idle .byHalves).load code
    let final := (stepFor 3 start).2
    final.status = .running ∧
      final.program.entries[final.cursor]? = some ⟨0xC003, .bytes 0x26 [0xFC]⟩ ∧
      (∀ e ∈ start.program.entries, e.line.IsWhole) ∧ final.cpu.pc = 0xC003 := by
  intro code start final
  have hstatus : final.status = .running := by decide +kernel
  have he : final.program.entries[final.cursor]? = some ⟨0xC003, .bytes 0x26 [0xFC]⟩ := by
    decide +kernel
  have hwhole : ∀ e ∈ start.program.entries, e.line.IsWhole := by decide +kernel
  obtain ⟨-, -, hcounter⟩ := counter_eq_address_add_lead (idle .byHalves) code 3 hstatus _ he
  exact ⟨hstatus, he, hwhole, hcounter hwhole⟩

/-- Behind an instruction whose operand is missing the program counter is not the address of the
line under the cursor. -/
theorem counter_ne_address_behind_missing_byte :
    let final := (stepFor 1 ((idle .byHalves).load "86\n20 FE")).2
    final.status = .running ∧
      final.program.entries[final.cursor]? = some ⟨0xC001, .bytes 0x20 [0xFE]⟩ ∧
        final.cpu.pc = 0xC002 := by
  decide +kernel

end Session

end Mc6800
