import Mc6800.Session

/-!
# Steps of a session

All that a step can do (`Session.step_cases`): report that it does nothing, hit the ceiling, find
the program over, or carry out the line under the cursor and settle. `Session.stepFor` takes any
number of steps, also when there is no next one; a run is as many of them as there are
(`Session.run_eq_stepFor`).
-/

set_option autoImplicit false

namespace Mc6800

/-! ## Kinds of traces -/

namespace Trace

/-- Whether an instruction was executed. -/
def isExecuted : Trace → Bool
  | executed .. => true
  | _ => false

/-- Whether a line was skipped since there is nothing on it. -/
def isBlank : Trace → Bool
  | blank _ => true
  | _ => false

/-- Whether a line was skipped since it is no instruction. -/
def isRefusal : Trace → Bool
  | undecodable .. | unknownOpcode .. => true
  | _ => false

/-- Whether no line is concerned. -/
def isNotice : Trace → Bool
  | limitReached _ | completed | notLoaded => true
  | _ => false

/-- The address to which control was transferred, if it was. -/
def target? : Trace → Option Word
  | executed _ _ effect => effect.target?
  | _ => none

theorem of_isNotice {t : Trace} (h : t.isNotice = true) :
    t.isExecuted = false ∧ t.isRefusal = false ∧ t.target? = none := by
  cases t with
  | limitReached _ | completed | notLoaded => exact ⟨rfl, rfl, rfl⟩
  | executed _ _ _ | blank _ | undecodable _ _ | unknownOpcode _ _ => cases h

end Trace

namespace Session

/-! ## One step -/

theorem step_of_limit {s : Session} (hstatus : s.status = .running) (h : s.limit ≤ s.steps) :
    s.step = (.limitReached s.limit, { s with status := .halted }) := by
  simp only [step, hstatus, if_pos h]

theorem step_of_line {s : Session} {e : Entry} (hstatus : s.status = .running)
    (h : s.steps < s.limit) (he : s.program.entries[s.cursor]? = some e) :
    s.step = ((s.carryOut e.line).1, (s.carryOut e.line).2.settle) := by
  simp only [step, hstatus, if_neg (Nat.not_le.2 h), he]

/-- All that a step can do. -/
theorem step_cases (s : Session) :
    (s.status ≠ .running ∧ s.step.1.isNotice = true ∧ s.step.2 = s) ∨
    (s.status = .running ∧ s.limit ≤ s.steps ∧
      s.step = (.limitReached s.limit, { s with status := .halted })) ∨
    (s.status = .running ∧ s.program.size ≤ s.cursor ∧
      s.step = (.completed, { s with status := .completed })) ∨
    ∃ e, s.status = .running ∧ s.steps < s.limit ∧ s.program.entries[s.cursor]? = some e ∧
      s.step = ((s.carryOut e.line).1, (s.carryOut e.line).2.settle) := by
  cases hstatus : s.status with
  | idle | halted | completed => exact .inl ⟨by simp, by simp [step, hstatus, Trace.isNotice]⟩
  | running =>
    rcases Nat.lt_or_ge s.steps s.limit with h | h
    · cases he : s.program.entries[s.cursor]? with
      | none =>
        refine .inr (.inr (.inl ⟨rfl, List.getElem?_eq_none_iff.1 he, ?_⟩))
        simp only [step, hstatus, if_neg (Nat.not_le.2 h), he]
      | some e => exact .inr (.inr (.inr ⟨e, rfl, h, rfl, step_of_line hstatus h he⟩))
    · exact .inr (.inl ⟨rfl, h, step_of_limit hstatus h⟩)

/-- A step that reports no notice carries out the line under the cursor. -/
theorem exists_line_of_not_isNotice {s : Session} (h : s.step.1.isNotice = false) :
    ∃ e, s.status = .running ∧ s.steps < s.limit ∧ s.program.entries[s.cursor]? = some e ∧
      s.step = ((s.carryOut e.line).1, (s.carryOut e.line).2.settle) := by
  rcases s.step_cases with ⟨-, hnotice, -⟩ | ⟨-, -, hs⟩ | ⟨-, -, hs⟩ | hline
  · rw [h] at hnotice
    cases hnotice
  · rw [hs] at h
    cases h
  · rw [hs] at h
    cases h
  · exact hline

/-- An executed instruction is the one that the line under the cursor encodes. -/
theorem exists_instruction_of_executed {s : Session} {pc : Word} {m : Mnemonic} {effect : Effect}
    (h : s.step.1 = .executed pc m effect) :
    ∃ place opcode operands i, s.status = .running ∧
      s.program.entries[s.cursor]? = some ⟨place, .bytes opcode operands⟩ ∧
      Instruction.decode? opcode = some i ∧ i.mnemonic = m ∧
      s.cpu.effectOf i operands = effect := by
  obtain ⟨⟨place, line⟩, hstatus, -, he, hs⟩ :=
    exists_line_of_not_isNotice (s := s) (by rw [h]; rfl)
  rw [hs] at h
  cases line with
  | blank | undecodable _ => cases h
  | bytes opcode operands =>
    simp only [carryOut] at h
    split at h
    · next i hdecode =>
      cases h
      exact ⟨place, opcode, operands, i, hstatus, he, hdecode, rfl, rfl⟩
    · cases h

/-- A settled session runs on with the cursor on a line, or is completed. -/
theorem status_settle {s : Session} (h : s.status = .running) :
    (s.cursor < s.program.size ∧ s.settle.status = .running) ∨
      (s.program.size ≤ s.cursor ∧ s.settle.status = .completed) := by
  unfold settle
  dsimp only
  split
  · next hlt => exact .inl ⟨hlt, h⟩
  · next hge => exact .inr ⟨Nat.not_lt.1 hge, rfl⟩

@[simp] theorem status_carryOut (s : Session) (line : CodeLine) :
    (s.carryOut line).2.status = s.status := by
  unfold carryOut
  split <;> try rfl
  split <;> rfl

@[simp] theorem cpu_settle (s : Session) : s.settle.cpu = s.cpu := rfl

/-! ## Behind one step -/

/-- Carrying out a line moves the cursor as the trace says: to the target of a transfer, behind the
last line if there is none, or to the next line. -/
def cursorBehind (s : Session) (trace : Trace) : Nat :=
  match trace.target? with
  | some target => (s.program.indexOf? s.search target).getD s.program.size
  | none => s.cursor + 1

theorem carryOut_eq (s : Session) (line : CodeLine) :
    (s.carryOut line).2 =
      { s with
        cpu := (s.carryOut line).2.cpu
        cursor := s.cursorBehind (s.carryOut line).1 } := by
  unfold carryOut
  split
  · rfl
  · rfl
  · split <;> rfl

theorem carryOut_congr {s t : Session} (h : s.cpu = t.cpu) (line : CodeLine) :
    (s.carryOut line).1 = (t.carryOut line).1 ∧
      (s.carryOut line).2.cpu = (t.carryOut line).2.cpu := by
  unfold carryOut
  rw [h]
  split
  · exact ⟨rfl, rfl⟩
  · exact ⟨rfl, rfl⟩
  · split <;> exact ⟨rfl, rfl⟩

theorem step_eq_of_line {s : Session} {e : Entry} (hstatus : s.status = .running)
    (hlimit : s.steps < s.limit) (he : s.program.entries[s.cursor]? = some e) :
    s.step = ((s.carryOut e.line).1,
      { s with
        cpu := (s.carryOut e.line).2.cpu
        cursor := s.cursorBehind (s.carryOut e.line).1
        steps := s.steps + 1
        status :=
          if s.cursorBehind (s.carryOut e.line).1 < s.program.size then .running
          else .completed }) := by
  rw [step_of_line hstatus hlimit he]
  refine Prod.ext rfl ?_
  show (s.carryOut e.line).2.settle = _
  rw [carryOut_eq, settle]
  simp only [hstatus]

theorem program_step (s : Session) : s.step.2.program = s.program := by
  rcases s.step_cases with ⟨-, -, hs⟩ | ⟨-, -, hs⟩ | ⟨-, -, hs⟩ | ⟨e, -, -, -, hs⟩
  · rw [hs]
  · rw [hs]
  · rw [hs]
  · rw [hs]
    exact program_carryOut s e.line

/-! ## Many steps -/

/-- Steps, whether or not there is a next one: their reports and the session behind. -/
def stepFor : Nat → Session → List Trace × Session
  | 0, s => ([], s)
  | n + 1, s => (s.step.1 :: (stepFor n s.step.2).1, (stepFor n s.step.2).2)

theorem stepFor_succ (s : Session) (n : Nat) : (stepFor (n + 1) s).2 = (stepFor n s).2.step.2 := by
  induction n generalizing s with
  | zero => rfl
  | succ n ih => exact ih s.step.2

/-- What a step keeps, many steps keep. -/
theorem stepFor_induction {P : Session → Prop} (hstep : ∀ s, P s → P s.step.2) {s : Session}
    (h : P s) (n : Nat) : P (stepFor n s).2 := by
  induction n generalizing s with
  | zero => exact h
  | succ n ih => exact ih (hstep s h)

theorem program_stepFor (s : Session) (n : Nat) : (stepFor n s).2.program = s.program :=
  stepFor_induction (P := fun t => t.program = s.program) (fun t h => t.program_step.trans h) rfl n

theorem length_stepFor (n : Nat) (s : Session) : (stepFor n s).1.length = n := by
  induction n generalizing s with
  | zero => rfl
  | succ n ih => simp [stepFor, ih]

/-- Fewer steps report the first traces of more steps. -/
theorem stepFor_isPrefix {k n : Nat} (h : k ≤ n) (s : Session) :
    (stepFor k s).1 <+: (stepFor n s).1 := by
  induction k generalizing n s with
  | zero => exact List.nil_prefix
  | succ k ih =>
    obtain ⟨n, rfl⟩ : ∃ j, n = j + 1 := ⟨n - 1, by omega⟩
    exact List.cons_prefix_cons.2 ⟨rfl, ih (by omega) s.step.2⟩

/-- A run is as many steps as it reports: there is a next step in front of each of them and none
behind the last. -/
theorem run_eq_stepFor (s : Session) :
    s.run = stepFor s.run.1.length s ∧ s.run.2.hasNextStep = false ∧
      ∀ k < s.run.1.length, (stepFor k s).2.hasNextStep = true := by
  cases hnext : s.hasNextStep with
  | false =>
    rw [run_of_not_hasNextStep hnext]
    exact ⟨rfl, hnext, fun k hk => absurd hk (Nat.not_lt_zero k)⟩
  | true =>
    have := remaining_step_lt hnext
    obtain ⟨hrest, hover, hbefore⟩ := run_eq_stepFor s.step.2
    rw [run_of_hasNextStep hnext]
    refine ⟨?_, hover, fun k hk => ?_⟩
    · simp only [List.length_cons, stepFor, ← hrest]
    · cases k with
      | zero => exact hnext
      | succ k => exact hbefore k (Nat.lt_of_succ_lt_succ hk)
termination_by s.remaining

theorem status_step_ne_idle {s : Session} (h : s.status ≠ .idle) : s.step.2.status ≠ .idle := by
  rcases s.step_cases with ⟨-, -, hs⟩ | ⟨-, -, hs⟩ | ⟨-, -, hs⟩ | ⟨e, hstatus, -, -, hs⟩
  · rwa [hs]
  · simp [hs]
  · simp [hs]
  · rw [hs]
    rcases status_settle (s := (s.carryOut e.line).2) (by simpa using hstatus) with
      ⟨-, h⟩ | ⟨-, h⟩ <;> simp [h]

theorem status_stepFor_ne_idle {s : Session} (h : s.status ≠ .idle) (n : Nat) :
    (stepFor n s).2.status ≠ .idle :=
  stepFor_induction (P := fun t => t.status ≠ .idle) (fun _ => status_step_ne_idle) h n

end Session

end Mc6800
