import Mc6800.Proofs.Session.Ceiling

/-!
# Sessions under any operations

A session is worked on by setting its ceiling, loading, stepping and running, in any order
(`Session.performAll`). A run is steps, so what the other three keep, all operations keep
(`Session.IsKept`). The cursor never leaves the program: a step keeps it inside or puts it behind
the last line (`Session.cursor_step_le`). A session that does not run stays as it is and answers
with the notice of its status (`Session.stepFor_of_notice?`), and a load forgets everything but the
search, which nothing changes, and the ceiling. `Session.performAll_law` says this of every session
that operations lead to.
-/

set_option autoImplicit false

namespace Mc6800

/-! ## What a step answers -/

/-- What a step of a session with this status reports if the session does not run. -/
def Status.notice? (limit : Nat) : Status → Option Trace
  | idle => some .notLoaded
  | running => none
  | halted => some (.limitReached limit)
  | completed => some .completed

/-- The trace tells what a line holds: nothing, text that is no code, an instruction, or an opcode
that no instruction has. -/
def Trace.Concerns : Trace → CodeLine → Prop
  | blank _, .blank => True
  | undecodable _ text, .undecodable body => text = body
  | executed _ m _, .bytes opcode _ => ∃ i, Instruction.decode? opcode = some i ∧ i.mnemonic = m
  | unknownOpcode _ opcode, .bytes first _ => opcode = first ∧ Instruction.decode? first = none
  | _, _ => False

namespace Session

variable {s : Session}

theorem concerns_carryOut (s : Session) (line : CodeLine) :
    (s.carryOut line).1.Concerns line := by
  cases line with
  | blank => trivial
  | undecodable text => rfl
  | bytes opcode operands =>
    simp only [carryOut]
    split
    · next i hdecode => exact ⟨i, hdecode, rfl⟩
    · next hdecode => exact ⟨rfl, hdecode⟩

/-- A session that does not run answers with its notice and stays as it is. -/
theorem step_of_notice? {notice : Trace} (h : s.status.notice? s.limit = some notice) :
    s.step = (notice, s) := by
  cases hstatus : s.status with
  | running =>
    rw [hstatus] at h
    cases h
  | idle | halted | completed =>
    rw [hstatus] at h
    cases h
    simp only [step, hstatus]

theorem stepFor_of_notice? {notice : Trace} (h : s.status.notice? s.limit = some notice) (n : Nat) :
    stepFor n s = (List.replicate n notice, s) := by
  induction n with
  | zero => rfl
  | succ n ih => rw [stepFor, step_of_notice? h, ih, List.replicate_succ]

theorem run_of_notice? {notice : Trace} (h : s.status.notice? s.limit = some notice) :
    s.run = ([], s) := by
  apply run_of_not_hasNextStep
  cases hstatus : s.status with
  | running =>
    rw [hstatus] at h
    cases h
  | idle | halted | completed => simp [hasNextStep, hstatus]

/-- The step that reports the ceiling changes the status only. -/
theorem step_of_isLimitReached (h : s.step.1.isLimitReached = true) :
    s.step.2 = { s with status := .halted } := by
  cases hstatus : s.status with
  | idle | completed =>
    simp only [step, hstatus] at h
    cases h
  | halted =>
    simp only [step, hstatus]
    rw [← hstatus]
  | running =>
    rcases s.step_cases with ⟨hne, -, -⟩ | ⟨-, -, hs⟩ | ⟨-, -, hs⟩ | ⟨e, -, -, -, hs⟩
    · exact absurd hstatus hne
    · rw [hs]
    · rw [hs] at h
      cases h
    · rw [hs, (Trace.of_not_isNotice (s.isNotice_carryOut e.line)).1] at h
      cases h

/-- A step of a running session that is no notice carries out a line and counts. -/
theorem steps_step (hstatus : s.status = .running) :
    s.step.1.isLimitReached = true ∨ s.step.1 = .completed ∨ s.step.2.steps = s.steps + 1 := by
  rcases s.step_cases with ⟨hne, -, -⟩ | ⟨-, -, hs⟩ | ⟨-, -, hs⟩ | ⟨e, -, -, -, hs⟩
  · exact absurd hstatus hne
  · exact .inl (by rw [hs]; rfl)
  · exact .inr (.inl (by rw [hs]))
  · refine .inr (.inr ?_)
    rw [hs]
    exact congrArg (· + 1) (s.steps_carryOut e.line)

/-- A step that there is reports the ceiling or carries out the line under the cursor. -/
theorem step_of_hasNextStep (h : s.hasNextStep = true) :
    s.step.1 = .limitReached s.limit ∨
    ∃ e, s.program.entries[s.cursor]? = some e ∧ s.step.1.Concerns e.line ∧
      s.step = ((s.carryOut e.line).1, (s.carryOut e.line).2.settle) := by
  obtain ⟨hstatus, hcursor⟩ := hasNextStep_eq_true h
  rcases s.step_cases with ⟨hne, -, -⟩ | ⟨-, -, hs⟩ | ⟨-, hover, -⟩ | ⟨e, -, -, he, hs⟩
  · exact absurd hstatus hne
  · exact .inl (by rw [hs])
  · omega
  · refine .inr ⟨e, he, ?_, hs⟩
    rw [hs]
    exact s.concerns_carryOut e.line

/-- A step that there is not changes the status at most. -/
theorem step_of_not_hasNextStep (h : s.hasNextStep = false) :
    s.step.2 = { s with status := s.step.2.status } := by
  rcases s.step_cases with ⟨-, -, hs⟩ | ⟨-, -, hs⟩ | ⟨-, -, hs⟩ | ⟨e, hstatus, -, he, -⟩
  · rw [hs]
  · rw [hs]
  · rw [hs]
  · have hcursor : s.cursor < s.program.size := (List.getElem?_eq_some_iff.1 he).1
    simp [hasNextStep, hstatus, hcursor] at h

/-! ## The cursor -/

theorem cursorBehind_le (hcursor : s.cursor < s.program.size) (trace : Trace) :
    s.cursorBehind trace ≤ s.program.size := by
  unfold cursorBehind
  split
  · next target _ =>
    cases hindex : s.program.indexOf? s.search target with
    | none => exact Nat.le_refl _
    | some k => exact Nat.le_of_lt (Program.lt_size_of_indexFrom? hindex)
  · exact hcursor

/-- A step keeps the cursor inside the program or puts it behind the last line. -/
theorem cursor_step_le (h : s.cursor ≤ s.program.size) :
    s.step.2.cursor ≤ s.step.2.program.size := by
  rw [program_step]
  rcases s.step_cases with ⟨-, -, hs⟩ | ⟨-, -, hs⟩ | ⟨-, -, hs⟩ | ⟨e, hstatus, hlimit, he, -⟩
  · rwa [hs]
  · rwa [hs]
  · rwa [hs]
  · rw [step_eq_of_line hstatus hlimit he]
    exact cursorBehind_le (List.getElem?_eq_some_iff.1 he).1 _

/-! ## Operations -/

/-- What can be asked of a session. -/
inductive Operation where
  | withLimit (limit : Nat)
  | load (code : Text)
  | step
  | run
  deriving DecidableEq, Repr

/-- What an operation reports, and the session behind it. -/
def perform (s : Session) : Operation → List Trace × Session
  | .withLimit limit => ([], s.withLimit limit)
  | .load code => ([], s.load code)
  | .step => ([s.step.1], s.step.2)
  | .run => s.run

/-- What operations report in turn, and the session behind them. -/
def performAll : List Operation → Session → List Trace × Session
  | [], s => ([], s)
  | op :: rest, s =>
    ((s.perform op).1 ++ (performAll rest (s.perform op).2).1, (performAll rest (s.perform op).2).2)

/-- A property of sessions that setting the ceiling, loading and stepping keep. -/
structure IsKept (P : Session → Prop) : Prop where
  withLimit : ∀ s limit, P s → P (s.withLimit limit)
  load : ∀ s code, P s → P (s.load code)
  step : ∀ s, P s → P s.step.2

/-- A run is steps, so it keeps the property too. -/
theorem IsKept.perform {P : Session → Prop} (hP : IsKept P) (h : P s) (op : Operation) :
    P (s.perform op).2 := by
  cases op with
  | withLimit limit => exact hP.withLimit s limit h
  | load code => exact hP.load s code h
  | step => exact hP.step s h
  | run =>
    show P s.run.2
    rw [s.run_eq_stepFor.1]
    exact stepFor_induction hP.step h _

theorem IsKept.performAll {P : Session → Prop} (hP : IsKept P) (h : P s)
    (operations : List Operation) : P (performAll operations s).2 := by
  induction operations generalizing s with
  | nil => exact h
  | cons op rest ih => exact ih (hP.perform h op)

theorem isKept_cursor_le : IsKept fun s => s.cursor ≤ s.program.size where
  withLimit _ _ h := h
  load _ _ _ := Nat.zero_le _
  step _ := cursor_step_le

/-- No operation changes how targets are looked for. -/
theorem isKept_search (search : Search) : IsKept fun s => s.search = search where
  withLimit _ _ h := h
  load _ _ h := h
  step s h := by
    rcases s.step_cases with ⟨-, -, hs⟩ | ⟨-, -, hs⟩ | ⟨-, -, hs⟩ | ⟨e, hstatus, hlimit, he, -⟩
    · rwa [hs]
    · rwa [hs]
    · rwa [hs]
    · rwa [step_eq_of_line hstatus hlimit he]

/-- A load forgets everything but the search and the ceiling. -/
theorem load_eq (s : Session) (code : Text) :
    s.load code = ((idle s.search).withLimit s.limit).load code := rfl

/-- **Sessions under any operations.** Whatever was done to a session since it was made, its cursor
is at most behind the last line. If it does not run, steps and runs leave it as it is, and every
step answers with the notice of its status. A step that reports the ceiling changes the status only.
Any other step of a running session finds it completed or counts one more step. A step that there is
reports the ceiling or carries out the line under the cursor; one that there is not changes the
status at most. Behind a load, all later operations report and do what they would with a new session
under the same ceiling. -/
theorem performAll_law (search : Search) (operations : List Operation) :
    let s := (performAll operations (idle search)).2
    s.cursor ≤ s.program.size ∧
    (∀ notice, s.status.notice? s.limit = some notice →
      s.run = ([], s) ∧ ∀ n, stepFor n s = (List.replicate n notice, s)) ∧
    (s.step.1.isLimitReached = true → s.step.2 = { s with status := .halted }) ∧
    (s.status = .running →
      s.step.1.isLimitReached = true ∨ s.step.1 = .completed ∨ s.step.2.steps = s.steps + 1) ∧
    (s.hasNextStep = true →
      s.step.1 = .limitReached s.limit ∨
      ∃ e, s.program.entries[s.cursor]? = some e ∧ s.step.1.Concerns e.line ∧
        s.step = ((s.carryOut e.line).1, (s.carryOut e.line).2.settle)) ∧
    (s.hasNextStep = false → s.step.2 = { s with status := s.step.2.status }) ∧
    ∀ code later, performAll later (s.load code) =
      performAll later (((idle search).withLimit s.limit).load code) := by
  intro s
  have hsearch : s.search = search := (isKept_search search).performAll rfl operations
  refine ⟨isKept_cursor_le.performAll (Nat.le_refl 0) operations, fun notice h => ?_,
    step_of_isLimitReached, steps_step, step_of_hasNextStep, step_of_not_hasNextStep,
    fun code later => ?_⟩
  · exact ⟨run_of_notice? h, stepFor_of_notice? h⟩
  · rw [s.load_eq code, hsearch]

/-- A branch to itself under the ceiling one, which is set behind the load: a line is carried out,
the ceiling is reported, and the halted session answers the same ever after. An empty text leaves no
next step. -/
theorem performAll_law_of_loop :
    let fresh := (performAll [.load "20 FE", .withLimit 1] (idle .byHalves)).2
    let spent := (performAll [.load "20 FE", .withLimit 1, .step] (idle .byHalves)).2
    let halted := (performAll [.load "20 FE", .withLimit 1, .run] (idle .byHalves)).2
    let empty := (performAll [.run, .load []] (idle .byHalves)).2
    (fresh.hasNextStep = true ∧ (fresh.step.1 = .limitReached fresh.limit ∨
      ∃ e, fresh.program.entries[fresh.cursor]? = some e ∧ fresh.step.1.Concerns e.line ∧
        fresh.step = ((fresh.carryOut e.line).1, (fresh.carryOut e.line).2.settle))) ∧
    (fresh.status = .running ∧ (fresh.step.1.isLimitReached = true ∨ fresh.step.1 = .completed ∨
      fresh.step.2.steps = fresh.steps + 1)) ∧
    (spent.step.1.isLimitReached = true ∧ spent.step.2 = { spent with status := .halted }) ∧
    (halted.status.notice? halted.limit = some (.limitReached 1) ∧ halted.run = ([], halted) ∧
      stepFor 3 halted = (List.replicate 3 (.limitReached 1), halted)) ∧
    (empty.hasNextStep = false ∧ empty.step.2 = { empty with status := empty.step.2.status }) := by
  intro fresh spent halted empty
  have hnext : fresh.hasNextStep = true := by decide +kernel
  have hstatus : fresh.status = .running := by decide +kernel
  have hceiling : spent.step.1.isLimitReached = true := by decide +kernel
  have hnotice : halted.status.notice? halted.limit = some (.limitReached 1) := by decide +kernel
  have hover : empty.hasNextStep = false := by decide +kernel
  obtain ⟨-, -, -, hcount, hline, -, -⟩ := performAll_law .byHalves [.load "20 FE", .withLimit 1]
  obtain ⟨-, -, hspent, -⟩ := performAll_law .byHalves [.load "20 FE", .withLimit 1, .step]
  obtain ⟨-, hhalted, -⟩ := performAll_law .byHalves [.load "20 FE", .withLimit 1, .run]
  obtain ⟨-, -, -, -, -, hempty, -⟩ := performAll_law .byHalves [.run, .load []]
  obtain ⟨hrun, hsteps⟩ := hhalted _ hnotice
  exact ⟨⟨hnext, hline hnext⟩, ⟨hstatus, hcount hstatus⟩, ⟨hceiling, hspent hceiling⟩,
    ⟨hnotice, hrun, hsteps 3⟩, hover, hempty hover⟩

end Session

end Mc6800
