import Mc6800.Proofs.Assembly.IdleLines
import Mc6800.Proofs.MachineCode.Lookup
import Mc6800.Proofs.Session.Ending

/-!
# Runs with and without blank lines

What a session goes on to report, blank lines aside, is decided by its processor, the lines of its
program that are not blank, and those of them that are ahead (`Session.View`). A step on a blank
line leaves these as they are, and any other step below the ceiling does what `Session.View.next`
says (`Session.IsLive.step_cases`), provided that no two lines have their bytes at one address. So
the reports that are not of blank lines can be told from the view alone, step by step
(`Session.IsLive.shown_stepFor`) and to the end of a run (`Session.IsLive.runs`), and idle lines in
a source do not show in them (`Session.idle_lines_neutral`).
-/

set_option autoImplicit false

namespace Mc6800

/-! ## The lines ahead -/

/-- Lines from the first one on whose bytes begin at an address. -/
def Entry.linesFrom (address : Word) (code : List Entry) : List Entry :=
  code.dropWhile fun e => !decide (e.BeginsAt address)

/-- A line that is found from an address is not blank, so the only one there is the same one
without the blank lines. -/
theorem Program.IsUnambiguous.filter_drop_indexOf? {p : Program} (hp : p.IsUnambiguous)
    (search : Search) (address : Word) :
    (p.entries.drop ((p.indexOf? search address).getD p.size)).filter (·.line ≠ .blank) =
      Entry.linesFrom address p.codeEntries := by
  rw [indexOf?, hp.indexFrom?_eq_findIdx?]
  unfold size Entry.linesFrom codeEntries
  induction p.entries with
  | nil => rfl
  | cons e rest ih =>
    by_cases hbegins : e.BeginsAt address
    · have hcode : e.line ≠ .blank := by
        intro hblank
        exact hbegins.2 (by rw [hblank]; rfl)
      rw [List.findIdx?_cons, if_pos (decide_eq_true hbegins), Option.getD_some, List.drop_zero,
        List.filter_cons_of_pos (by simp [hcode]), List.dropWhile_cons_of_neg (by simp [hbegins])]
    · have hdrop : (e :: rest).drop
          (((e :: rest).findIdx? fun e => e.BeginsAt address).getD (e :: rest).length) =
          rest.drop ((rest.findIdx? fun e => e.BeginsAt address).getD rest.length) := by
        rw [List.findIdx?_cons, if_neg (by simp [hbegins])]
        cases rest.findIdx? fun e => e.BeginsAt address <;> rfl
      rw [hdrop, ih]
      by_cases hblank : e.line = .blank
      · rw [List.filter_cons_of_neg (by simp [hblank])]
      · rw [List.filter_cons_of_pos (by simp [hblank]),
          List.dropWhile_cons_of_pos (by simp [hbegins])]

namespace Session

/-- What decides the reports of a session, those of blank lines aside. -/
structure View where
  cpu : Cpu
  /-- The lines from the cursor on that are not blank. -/
  ahead : List Entry
  /-- All lines that are not blank. -/
  code : List Entry

/-- The report of the first of the lines ahead, and the view behind it. A line does to the processor
of any session what it does to that of one with nothing loaded (`carryOut_congr`). -/
def View.next (v : View) : Trace × View :=
  match v.ahead with
  | [] => (.completed, v)
  | e :: rest =>
    let (trace, s) := { idle .byHalves with cpu := v.cpu }.carryOut e.line
    (trace, ⟨s.cpu, (trace.target?.map (Entry.linesFrom · v.code)).getD rest, v.code⟩)

def view (s : Session) : View :=
  ⟨s.cpu, (s.program.entries.drop s.cursor).filter (·.line ≠ .blank), s.program.codeEntries⟩

/-- A session that was loaded and has not hit its ceiling. An address leads it to one line only. -/
structure IsLive (s : Session) : Prop where
  unambiguous : s.program.IsUnambiguous
  status : s.status = .running ∨ (s.status = .completed ∧ s.program.size ≤ s.cursor)

variable {s : Session} {e : Entry}

theorem View.next_of_nil {v : View} (h : v.ahead = []) : v.next = (.completed, v) := by
  rw [next, h]

theorem View.next_of_cons {v : View} {rest : List Entry} (h : v.ahead = e :: rest)
    (hcpu : v.cpu = s.cpu) :
    v.next = ((s.carryOut e.line).1, ⟨(s.carryOut e.line).2.cpu,
      ((s.carryOut e.line).1.target?.map (Entry.linesFrom · v.code)).getD rest, v.code⟩) := by
  obtain ⟨htrace, hbehind⟩ := carryOut_congr (s := { idle .byHalves with cpu := v.cpu }) hcpu e.line
  rw [next, h]
  dsimp only
  rw [htrace, hbehind]

theorem ahead_view_eq_nil (h : s.program.size ≤ s.cursor) : s.view.ahead = [] := by
  simp only [view, List.drop_of_length_le h, List.filter_nil]

theorem drop_cursor (h : s.program.entries[s.cursor]? = some e) :
    s.program.entries.drop s.cursor = e :: s.program.entries.drop (s.cursor + 1) := by
  obtain ⟨hcursor, he⟩ := List.getElem?_eq_some_iff.1 h
  rw [List.drop_eq_getElem_cons hcursor, he]

/-! ## One step -/

theorem isBlank_carryOut (s : Session) (line : CodeLine) :
    (s.carryOut line).1.isBlank = decide (line = .blank) := by
  unfold carryOut
  split
  · rfl
  · rfl
  · split <;> rfl

/-- The lines ahead when the cursor has moved behind a trace. -/
theorem filter_drop_cursorBehind (hp : s.program.IsUnambiguous) (trace : Trace) :
    (s.program.entries.drop (s.cursorBehind trace)).filter (·.line ≠ .blank) =
      (trace.target?.map (Entry.linesFrom · s.program.codeEntries)).getD
        ((s.program.entries.drop (s.cursor + 1)).filter (·.line ≠ .blank)) := by
  unfold cursorBehind
  cases trace.target? with
  | none => rfl
  | some target => exact hp.filter_drop_indexOf? s.search target

theorem view_step_of_line (hp : s.program.IsUnambiguous) (hstatus : s.status = .running)
    (hsteps : s.steps < s.limit) (he : s.program.entries[s.cursor]? = some e) :
    s.step.2.IsLive ∧ s.step.2.view = ⟨(s.carryOut e.line).2.cpu,
      ((s.carryOut e.line).1.target?.map (Entry.linesFrom · s.program.codeEntries)).getD
        ((s.program.entries.drop (s.cursor + 1)).filter (·.line ≠ .blank)),
      s.program.codeEntries⟩ := by
  rw [step_eq_of_line hstatus hsteps he]
  refine ⟨⟨hp, ?_⟩, congrArg (View.mk _ · _) (filter_drop_cursorBehind hp _)⟩
  by_cases hlt : s.cursorBehind (s.carryOut e.line).1 < s.program.size
  · exact .inl (if_pos hlt)
  · exact .inr ⟨if_neg hlt, Nat.not_lt.1 hlt⟩

/-- A step below the ceiling passes over a blank line, or is the next one of the view. -/
theorem IsLive.step_cases (h : s.IsLive) (hlimit : s.step.1.isLimitReached = false) :
    s.step.2.IsLive ∧
      ((s.step.1.isBlank = true ∧ s.step.2.view = s.view) ∨
      (s.step.1.isBlank = false ∧ (s.hasNextStep = true → s.view.ahead ≠ []) ∧
        s.view.next = (s.step.1, s.step.2.view))) := by
  rcases s.step_cases with ⟨hstatus, -, hs⟩ | ⟨-, -, hs⟩ | ⟨hstatus, hcursor, hs⟩ |
    ⟨e, hstatus, hsteps, he, -⟩
  · obtain ⟨hdone, hcursor⟩ := h.status.resolve_left hstatus
    have htrace : s.step.1 = .completed := by simp only [step, hdone]
    have hahead := ahead_view_eq_nil hcursor
    rw [htrace, hs]
    exact ⟨h, .inr ⟨rfl, by simp [hasNextStep, hdone], View.next_of_nil hahead⟩⟩
  · rw [hs] at hlimit
    cases hlimit
  · have hahead := ahead_view_eq_nil hcursor
    rw [hs]
    refine ⟨⟨h.unambiguous, .inr ⟨rfl, hcursor⟩⟩, .inr ⟨rfl, ?_, View.next_of_nil hahead⟩⟩
    exact fun hnext => absurd (hasNextStep_eq_true hnext).2 (Nat.not_lt.2 hcursor)
  · obtain ⟨hlive, hview⟩ := view_step_of_line h.unambiguous hstatus hsteps he
    have htrace : s.step.1 = (s.carryOut e.line).1 := by rw [step_of_line hstatus hsteps he]
    rw [hview, htrace, isBlank_carryOut]
    refine ⟨hlive, ?_⟩
    by_cases hline : e.line = .blank
    · refine .inl ⟨decide_eq_true hline, ?_⟩
      rw [hline, view, drop_cursor he, List.filter_cons_of_neg (by simp [hline])]
      rfl
    · have hahead : s.view.ahead =
          e :: (s.program.entries.drop (s.cursor + 1)).filter (·.line ≠ .blank) := by
        simp only [view, drop_cursor he]
        rw [List.filter_cons_of_pos (by simp [hline])]
      exact .inr ⟨decide_eq_false hline, by simp [hahead], View.next_of_cons hahead rfl⟩

end Session

/-! ## Many steps -/

/-- The reports that are not of blank lines. -/
def Trace.shown (log : List Trace) : List Trace := log.filter (!·.isBlank)

theorem Trace.shown_cons_of_isBlank {trace : Trace} (h : trace.isBlank = true) (log : List Trace) :
    shown (trace :: log) = shown log := List.filter_cons_of_neg (by simp [h])

theorem Trace.shown_cons {trace : Trace} (h : trace.isBlank = false) (log : List Trace) :
    shown (trace :: log) = trace :: shown log := List.filter_cons_of_pos (by simp [h])

namespace Session

open Trace (shown shown_cons shown_cons_of_isBlank)

variable {s t : Session}

/-- The next reports of a view, and the view behind them. -/
def View.nextFor : Nat → View → List Trace × View
  | 0, v => ([], v)
  | n + 1, v => (v.next.1 :: (nextFor n v.next.2).1, (nextFor n v.next.2).2)

/-- **Blank lines aside, a view tells the reports of a session**, and its view behind them, as long
as it has not hit its ceiling. -/
theorem IsLive.shown_stepFor {k : Nat} (h : s.IsLive)
    (hlimit : ∀ trace ∈ (stepFor k s).1, trace.isLimitReached = false) :
    s.view.nextFor (shown (stepFor k s).1).length =
      (shown (stepFor k s).1, (stepFor k s).2.view) := by
  induction k generalizing s with
  | zero => rfl
  | succ k ih =>
    obtain ⟨hfirst, hrest⟩ := List.forall_mem_cons.1 hlimit
    obtain ⟨hlive, ⟨hblank, hview⟩ | ⟨hblank, -, hnext⟩⟩ := h.step_cases hfirst
    · simp only [stepFor, shown_cons_of_isBlank hblank]
      rw [← hview]
      exact ih hlive hrest
    · simp only [stepFor, shown_cons hblank, List.length_cons, View.nextFor, hnext, ih hlive hrest]

/-- Sessions with the same view keep in step, each passing over its own blank lines. -/
theorem IsLive.shown_stepFor_congr {k k' : Nat} (h : s.IsLive) (h' : t.IsLive)
    (hview : t.view = s.view)
    (hlength : (shown (stepFor k s).1).length = (shown (stepFor k' t).1).length)
    (hlimit : ∀ trace ∈ (stepFor k s).1, trace.isLimitReached = false)
    (hlimit' : ∀ trace ∈ (stepFor k' t).1, trace.isLimitReached = false) :
    shown (stepFor k s).1 = shown (stepFor k' t).1 ∧
      (stepFor k s).2.cpu = (stepFor k' t).2.cpu := by
  have hsame := h'.shown_stepFor hlimit'
  rw [hview, ← hlength, h.shown_stepFor hlimit, Prod.mk.injEq] at hsame
  exact ⟨hsame.1, congrArg View.cpu hsame.2⟩

theorem cursor_step_of_isBlank (h : s.step.1.isBlank = true) :
    s.cursor < s.program.size ∧ s.step.2.cursor = s.cursor + 1 := by
  have hnotice : s.step.1.isNotice = false := by
    cases htrace : s.step.1 <;> simp_all [Trace.isBlank, Trace.isNotice]
  obtain ⟨e, -, -, he, hs⟩ := exists_line_of_not_isNotice hnotice
  rw [hs] at h ⊢
  rw [isBlank_carryOut, decide_eq_true_eq] at h
  rw [h]
  exact ⟨(List.getElem?_eq_some_iff.1 he).1, rfl⟩

/-- Every session reports something else than blank lines again and again. -/
theorem exists_length_shown (s : Session) (n : Nat) : ∃ k, (shown (stepFor k s).1).length = n := by
  induction n generalizing s with
  | zero => exact ⟨0, rfl⟩
  | succ n ihn =>
    -- On the lines behind the cursor: there are fewer with each blank line.
    induction hd : s.program.size - s.cursor using Nat.strongRecOn generalizing s with
    | ind d ihd =>
      cases hblank : s.step.1.isBlank with
      | true =>
        obtain ⟨hlt, hcursor⟩ := cursor_step_of_isBlank hblank
        obtain ⟨k, hk⟩ := ihd _ (by rw [program_step, hcursor]; omega) s.step.2 rfl
        exact ⟨k + 1, by rw [stepFor, shown_cons_of_isBlank hblank, hk]⟩
      | false =>
        obtain ⟨k, hk⟩ := ihn s.step.2
        exact ⟨k + 1, by rw [stepFor, shown_cons hblank, List.length_cons, hk]⟩

/-! ## Runs -/

/-- The reports of a view until no line is ahead, and the view behind them. -/
inductive View.Runs : View → List Trace → View → Prop where
  | done {v : View} (h : v.ahead = []) : Runs v [] v
  | step {v w : View} {log : List Trace} (h : v.ahead ≠ []) (hrest : Runs v.next.2 log w) :
      Runs v (v.next.1 :: log) w

theorem View.Runs.unique {v w w' : View} {log log' : List Trace} (h : Runs v log w)
    (h' : Runs v log' w') : log = log' ∧ w = w' := by
  induction h generalizing log' with
  | done hnil =>
    cases h' with
    | done _ => exact ⟨rfl, rfl⟩
    | step hcons _ => exact absurd hnil hcons
  | step hcons _ ih =>
    cases h' with
    | done hnil => exact absurd hnil hcons
    | step _ hrest =>
      obtain ⟨rfl, rfl⟩ := ih hrest
      exact ⟨rfl, rfl⟩

theorem isLimitReached_step_of_run (hnext : s.hasNextStep = true) (h : s.run.2.status ≠ .halted) :
    s.step.1.isLimitReached = false ∧ s.step.2.run.2.status ≠ .halted := by
  rw [run_of_hasNextStep hnext] at h
  refine ⟨?_, h⟩
  rcases step_ending hnext with ⟨hlimit, -⟩ | ⟨hlimit, -⟩ | ⟨-, hhalted⟩
  · exact hlimit
  · exact hlimit
  · rw [run_of_not_hasNextStep (by simp [hasNextStep, hhalted])] at h
    exact absurd hhalted h

/-- **A run that is not halted is that of its view**, blank lines aside. -/
theorem IsLive.runs {s : Session} (h : s.IsLive) (hrun : s.run.2.status ≠ .halted) :
    s.view.Runs (shown s.run.1) s.run.2.view := by
  cases hnext : s.hasNextStep with
  | false =>
    have hcursor : s.program.size ≤ s.cursor := by
      rcases h.status with hrunning | ⟨-, hcursor⟩
      · simpa [hasNextStep, hrunning] using hnext
      · exact hcursor
    rw [run_of_not_hasNextStep hnext]
    exact .done (ahead_view_eq_nil hcursor)
  | true =>
    have := remaining_step_lt hnext
    obtain ⟨hlimit, hrun'⟩ := isLimitReached_step_of_run hnext hrun
    obtain ⟨hlive, hstep⟩ := h.step_cases hlimit
    -- On the steps that remain; one on a blank line leaves the view to the rest of the run.
    have hrest := runs hlive hrun'
    rw [run_of_hasNextStep hnext]
    rcases hstep with ⟨hblank, hview⟩ | ⟨hblank, hahead, hview⟩
    · rw [shown_cons_of_isBlank hblank, ← hview]
      exact hrest
    · have htrace : s.step.1 = s.view.next.1 := by rw [hview]
      have hbehind : s.step.2.view = s.view.next.2 := by rw [hview]
      rw [hbehind] at hrest
      rw [shown_cons hblank, htrace]
      exact .step (hahead hnext) hrest
termination_by s.remaining

theorem IsLive.shown_run_congr (h : s.IsLive) (h' : t.IsLive) (hview : t.view = s.view)
    (hrun : s.run.2.status ≠ .halted) (hrun' : t.run.2.status ≠ .halted) :
    shown s.run.1 = shown t.run.1 ∧ s.run.2.cpu = t.run.2.cpu := by
  have hruns := h'.runs hrun'
  rw [hview] at hruns
  obtain ⟨hlog, hfinal⟩ := (h.runs hrun).unique hruns
  exact ⟨hlog, congrArg View.cpu hfinal⟩

/-! ## Loaded assemblies -/

theorem isLive_load {a : Assembly} (hread : ∀ l ∈ a.lines, l.outcome.IsReadable)
    (hsize : a.image.length ≤ 65536) (s : Session) : (s.load a.machineCode).IsLive :=
  ⟨Program.isUnambiguous_machineCode hread hsize loadAddress, .inl rfl⟩

/-- Sources with the same code lines are loaded with the same view. -/
theorem view_load_of_codeLines {source other : Text} (h : codeLines other = codeLines source)
    (base : Word) (s t : Session) :
    (t.load ((Assembler.ofSource other).withOrigin base).assemble.machineCode).view =
      (s.load ((Assembler.ofSource source).withOrigin base).assemble.machineCode).view :=
  congrArg (fun code => View.mk (.reset loadAddress) code code)
    (Program.codeEntries_of_codeLines h base loadAddress)

/-- **Idle lines are neutral.** Blank lines and comments anywhere in a source leave its labels, its
origin and the addresses and outcomes of the lines that are not empty as they are. With no more
bytes than addresses both machine codes, loaded into any sessions, are run alike: the first `n`
reports that are not of blank lines are the same, and so is the processor behind them, for every
`n`, as long as neither session has hit its ceiling. So are the whole runs, if neither is halted. -/
theorem idle_lines_neutral {source other : Text} (h : codeLines other = codeLines source)
    (base : Word) (s t : Session) :
    let a := ((Assembler.ofSource source).withOrigin base).assemble
    let b := ((Assembler.ofSource other).withOrigin base).assemble
    let e := s.load a.machineCode
    let e' := t.load b.machineCode
    (b.labels = a.labels ∧ b.origin = a.origin ∧
      b.lines.filter (·.outcome ≠ .empty) = a.lines.filter (·.outcome ≠ .empty)) ∧
    (∀ n, ∃ k k', (shown (stepFor k e).1).length = n ∧ (shown (stepFor k' e').1).length = n) ∧
    (a.image.length ≤ 65536 →
      (∀ k k', (shown (stepFor k e).1).length = (shown (stepFor k' e').1).length →
        (∀ trace ∈ (stepFor k e).1, trace.isLimitReached = false) →
        (∀ trace ∈ (stepFor k' e').1, trace.isLimitReached = false) →
        shown (stepFor k e).1 = shown (stepFor k' e').1 ∧
          (stepFor k e).2.cpu = (stepFor k' e').2.cpu) ∧
      (e.run.2.status ≠ .halted → e'.run.2.status ≠ .halted →
        shown e.run.1 = shown e'.run.1 ∧ e.run.2.cpu = e'.run.2.cpu)) := by
  intro a b e e'
  have hassembly := Assembler.assemble_of_codeLines h base
  refine ⟨hassembly, fun n => ?_, fun hsize => ?_⟩
  · obtain ⟨k, hk⟩ := e.exists_length_shown n
    obtain ⟨k', hk'⟩ := e'.exists_length_shown n
    exact ⟨k, k', hk, hk'⟩
  · have hview : e'.view = e.view := view_load_of_codeLines h base s t
    have himage : b.image = a.image := Assembly.image_congr hassembly.2.2
    have hlive : e.IsLive := isLive_load (Assembler.isReadable_of_mem_lines source base) hsize s
    have hlive' : e'.IsLive :=
      isLive_load (Assembler.isReadable_of_mem_lines other base) (himage ▸ hsize) t
    exact ⟨fun k k' => hlive.shown_stepFor_congr hlive' hview, hlive.shown_run_congr hlive' hview⟩

/-- Two rounds of a loop, with and without blank lines and comments in front of it, in it and behind
it. -/
theorem idle_lines_neutral_in_loop :
    let source : Text := "LDAB #5\nTOP DECB\nBNE TOP\n"
    let other : Text := "* count\r\nLDAB #5\r\n\n; again\nTOP DECB\n \t\n\nBNE TOP\n\n; done"
    let a := ((Assembler.ofSource source).withOrigin loadAddress).assemble
    let e := (idle .byHalves).load a.machineCode
    let e' := (idle .byHalves).load
      ((Assembler.ofSource other).withOrigin loadAddress).assemble.machineCode
    codeLines other = codeLines source ∧ a.image.length ≤ 65536 ∧
      shown (stepFor 5 e).1 = shown (stepFor 12 e').1 ∧
      (stepFor 5 e).2.cpu = (stepFor 12 e').2.cpu := by
  intro source other
  have hlines : codeLines other = codeLines source := by decide +kernel
  have hsize : ((Assembler.ofSource source).withOrigin loadAddress).assemble.image.length
      ≤ 65536 := by decide +kernel
  obtain ⟨-, -, hruns⟩ :=
    idle_lines_neutral hlines loadAddress (idle .byHalves) (idle .byHalves)
  have hsteps := (hruns hsize).1 5 12
  exact ⟨hlines, hsize, hsteps (by decide +kernel) (by decide +kernel) (by decide +kernel)⟩

end Session

end Mc6800
