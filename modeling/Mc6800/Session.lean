import Mc6800.Assembly.Passes
import Mc6800.Cpu.Execute
import Mc6800.Program
import Mc6800.Trace

/-!
# Sessions

A session holds a processor, a loaded program and a cursor into the program's lines. A step carries
out the line under the cursor; a line that is blank or no code takes a step and no address. A run
takes steps until the program is over or the step ceiling is hit, so it always ends.
-/

set_option autoImplicit false

namespace Mc6800

/-- Where a session is in its life. -/
inductive Status where
  /-- Nothing is loaded. -/
  | idle
  | running
  /-- Stopped by the step ceiling. -/
  | halted
  /-- The cursor is behind the last line. -/
  | completed
  deriving DecidableEq, Repr

/-- The short name of a status. -/
def Status.name : Status → Text
  | idle => "Idle"
  | running => "Running"
  | halted => "Halted"
  | completed => "Completed"

/-- The step ceiling of a session that sets no other. -/
def defaultStepLimit : Nat := 100

/-- A processor at work on a program. -/
structure Session where
  /-- How the target of a transfer of control is looked for. -/
  search : Search
  cpu : Cpu
  program : Program
  /-- The number of the next line. -/
  cursor : Nat
  /-- The steps taken since the program was loaded. -/
  steps : Nat
  /-- The step ceiling. -/
  limit : Nat
  status : Status

namespace Session

/-- A session with nothing loaded. -/
def idle (search : Search) : Session :=
  ⟨search, .reset loadAddress, .empty, 0, 0, defaultStepLimit, .idle⟩

/-- The session under another step ceiling. -/
def withLimit (s : Session) (limit : Nat) : Session := { s with limit }

/-- The session with a machine code text loaded. The processor, the old program and the steps taken
are forgotten. -/
def load (s : Session) (code : Text) : Session :=
  ⟨s.search, .reset loadAddress, Program.parse code loadAddress, 0, 0, s.limit, .running⟩

/-- Whether the next step carries out a line or reports the ceiling. -/
def hasNextStep (s : Session) : Bool :=
  s.status == .running && decide (s.cursor < s.program.size)

/-! ## Steps -/

/-- The line behind an effect: the one whose bytes begin at the effect's target, the line behind the
last if there is none, or the next line if control just goes on. -/
def cursorAfter (s : Session) (effect : Effect) : Nat :=
  match effect.target? with
  | some target => (s.program.indexOf? s.search target).getD s.program.size
  | none => s.cursor + 1

/-- What carrying out a line reports, and the session behind it. -/
def carryOut (s : Session) : CodeLine → Trace × Session
  | .blank => (.blank s.cpu.pc, { s with cursor := s.cursor + 1 })
  | .undecodable text => (.undecodable s.cpu.pc text, { s with cursor := s.cursor + 1 })
  | .bytes opcode operands =>
    match Instruction.decode? opcode with
    | some i =>
      let (effect, cpu) := s.cpu.execute i operands
      (.executed s.cpu.pc i.mnemonic effect,
        { s with cpu := cpu.advance i effect, cursor := s.cursorAfter effect })
    | none =>
      let pc := s.cpu.pc + UInt16.ofNat (operands.length + 1)
      (.unknownOpcode s.cpu.pc opcode,
        { s with cpu := { s.cpu with pc }, cursor := s.cursor + 1 })

/-- The session with one more step taken, and completed if its cursor is behind the last line. -/
def settle (s : Session) : Session :=
  { s with
    steps := s.steps + 1
    status := if s.cursor < s.program.size then s.status else .completed }

/-- One step: what it reports, and the session behind it. A session that is not running stays as it
is. The ceiling is looked at before the program's end. -/
def step (s : Session) : Trace × Session :=
  match s.status with
  | .idle => (.notLoaded, s)
  | .halted => (.limitReached s.limit, s)
  | .completed => (.completed, s)
  | .running =>
    if s.limit ≤ s.steps then (.limitReached s.limit, { s with status := .halted })
    else
      match s.program.entries[s.cursor]? with
      | none => (.completed, { s with status := .completed })
      | some entry =>
        let (trace, s) := s.carryOut entry.line
        (trace, s.settle)

@[simp] theorem program_carryOut (s : Session) (line : CodeLine) :
    (s.carryOut line).2.program = s.program := by
  unfold carryOut
  split <;> try rfl
  split <;> rfl

@[simp] theorem limit_carryOut (s : Session) (line : CodeLine) :
    (s.carryOut line).2.limit = s.limit := by
  unfold carryOut
  split <;> try rfl
  split <;> rfl

@[simp] theorem steps_carryOut (s : Session) (line : CodeLine) :
    (s.carryOut line).2.steps = s.steps := by
  unfold carryOut
  split <;> try rfl
  split <;> rfl

/-! ## Runs -/

/-- At most `fuel` steps, as long as there is a next one: their reports and the session behind. -/
def runFor : Nat → Session → List Trace × Session
  | 0, s => ([], s)
  | fuel + 1, s =>
    if s.hasNextStep then
      let (trace, s) := s.step
      let (log, final) := runFor fuel s
      (trace :: log, final)
    else ([], s)

/-- The number of steps after which no next one is left. -/
def remaining (s : Session) : Nat :=
  if s.hasNextStep then s.limit - s.steps + 1 else 0

theorem hasNextStep_eq_true {s : Session} (h : s.hasNextStep = true) :
    s.status = .running ∧ s.cursor < s.program.size := by
  simpa [hasNextStep] using h

theorem remaining_le (s : Session) : s.remaining ≤ s.limit - s.steps + 1 := by
  unfold remaining
  split <;> omega

theorem remaining_eq_zero_of_status_ne {s : Session} (h : s.status ≠ .running) :
    s.remaining = 0 := by
  simp [remaining, hasNextStep, h]

/-- A step that there is uses up some of what remains. -/
theorem remaining_step_lt {s : Session} (h : s.hasNextStep = true) :
    s.step.2.remaining < s.remaining := by
  obtain ⟨hstatus, hcursor⟩ := hasNextStep_eq_true h
  have hremaining : s.remaining = s.limit - s.steps + 1 := by simp [remaining, h]
  have hentry : s.program.entries[s.cursor]? = some s.program.entries[s.cursor] :=
    List.getElem?_eq_getElem hcursor
  unfold step
  rw [hstatus]
  dsimp only
  split
  · rw [remaining_eq_zero_of_status_ne (by simp)]
    omega
  · rw [hentry]
    have := remaining_le (s.carryOut s.program.entries[s.cursor].line).2.settle
    simp only [settle, limit_carryOut, steps_carryOut] at this ⊢
    omega

theorem runFor_of_not_hasNextStep {s : Session} (h : s.hasNextStep = false) (fuel : Nat) :
    runFor fuel s = ([], s) := by
  cases fuel <;> simp [runFor, h]

/-- Fuel beyond what remains changes nothing. -/
theorem runFor_congr {s : Session} {m n : Nat} (hm : s.remaining ≤ m) (hn : s.remaining ≤ n) :
    runFor m s = runFor n s := by
  cases hnext : s.hasNextStep with
  | false => rw [runFor_of_not_hasNextStep hnext, runFor_of_not_hasNextStep hnext]
  | true =>
    have hlt := remaining_step_lt hnext
    obtain ⟨m, rfl⟩ : ∃ k, m = k + 1 := ⟨m - 1, by omega⟩
    obtain ⟨n, rfl⟩ : ∃ k, n = k + 1 := ⟨n - 1, by omega⟩
    simp only [runFor, hnext, if_true]
    rw [runFor_congr (by omega : _ ≤ m) (by omega : _ ≤ n)]
termination_by m

/-- Steps until the program is over or the ceiling is hit. -/
def run (s : Session) : List Trace × Session := runFor s.remaining s

theorem run_of_not_hasNextStep {s : Session} (h : s.hasNextStep = false) : s.run = ([], s) :=
  runFor_of_not_hasNextStep h _

/-- A run is a step and the run from there, as long as there is a next step. -/
theorem run_of_hasNextStep {s : Session} (h : s.hasNextStep = true) :
    s.run = (s.step.1 :: s.step.2.run.1, s.step.2.run.2) := by
  have hlt := remaining_step_lt h
  obtain ⟨n, hn⟩ : ∃ k, s.remaining = k + 1 := ⟨s.remaining - 1, by omega⟩
  have hrest : runFor n s.step.2 = s.step.2.run := runFor_congr (by omega) (Nat.le_refl _)
  rw [run, hn]
  simp only [runFor, h, if_true]
  rw [hrest]

end Session

end Mc6800
