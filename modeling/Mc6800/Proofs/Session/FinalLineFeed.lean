import Mc6800.Proofs.MachineCode.Lookup
import Mc6800.Proofs.Session.Steps

/-!
# Machine code text with and without a final line feed

The machine code text of an assembly that ends in an empty line is read as one line less than the
same text with a line feed behind it. The line that is lost is blank, so the longer program runs
like the shorter one (`Session.run_extended`) until that is left by its last line. Then it takes one
more step, for which the ceiling may leave no room, and an empty program is not run at all
(`Session.run_with_lineFeed_iff`). One more line may move the start of a search, so this needs that
no two lines have their bytes at one address.
-/

set_option autoImplicit false

namespace Mc6800

namespace Session

/-- The session with a blank line behind its program. -/
def extended (s : Session) (address : Word) : Session :=
  { s with program := ⟨s.program.entries ++ [⟨address, .blank⟩]⟩ }

variable {s : Session} {address : Word}

@[simp] theorem size_extended : (s.extended address).program.size = s.program.size + 1 := by
  simp [extended, Program.size]

theorem findIdx?_extended (target : Word) :
    (s.extended address).program.entries.findIdx? (fun e => e.BeginsAt target) =
      s.program.entries.findIdx? fun e => e.BeginsAt target := by
  simp [extended, List.findIdx?_append, Entry.BeginsAt, CodeLine.code]

/-- A line of the longer program that has bytes is one of the shorter program. -/
theorem getElem?_of_extended {i : Nat} {e : Entry} {target : Word}
    (he : (s.extended address).program.entries[i]? = some e) (hbegins : e.BeginsAt target) :
    s.program.entries[i]? = some e := by
  rcases Nat.lt_or_ge i s.program.entries.length with hlt | hge
  · rwa [extended, List.getElem?_append_left hlt] at he
  · rw [extended, List.getElem?_append_right hge, List.getElem?_singleton] at he
    split at he
    · cases he
      exact absurd rfl hbegins.2
    · cases he

theorem isUnambiguous_extended (hs : s.program.IsUnambiguous) :
    (s.extended address).program.IsUnambiguous := fun target i j e g he hg hbegins hbegins' =>
  hs target i j e g (getElem?_of_extended he hbegins) (getElem?_of_extended hg hbegins') hbegins
    hbegins'

/-- The search may start at another line of the longer program, which does not matter if there is
only one line to be found. -/
theorem indexOf?_extended (hs : s.program.IsUnambiguous) (target : Word) :
    (s.extended address).program.indexOf? (s.extended address).search target =
      s.program.indexOf? s.search target := by
  rw [Program.indexOf?, Program.indexOf?, hs.indexFrom?_eq_findIdx?,
    (isUnambiguous_extended hs).indexFrom?_eq_findIdx?, findIdx?_extended]

theorem hasNextStep_extended (h : s.hasNextStep = true) :
    (s.extended address).hasNextStep = true := by
  obtain ⟨hstatus, hcursor⟩ := hasNextStep_eq_true h
  have hsize : (s.extended address).program.size = s.program.size + 1 := size_extended
  simp only [hasNextStep, hsize]
  simp only [extended, hstatus, Bool.and_eq_true, decide_eq_true_eq]
  exact ⟨rfl, by omega⟩

/-! ## One step -/

/-- The cursor behind a trace is the same in the longer program, but for a transfer to an address
at which no line begins. -/
theorem cursorBehind_extended (hs : s.program.IsUnambiguous) (address : Word) (trace : Trace)
    (hcursor : s.cursor < s.program.size) :
    (s.cursorBehind trace < s.program.size ∧
      (s.extended address).cursorBehind trace = s.cursorBehind trace) ∨
    (trace.target? ≠ none ∧ s.cursorBehind trace = s.program.size ∧
      (s.extended address).cursorBehind trace = s.program.size + 1) ∨
    (trace.target? = none ∧ s.cursorBehind trace = s.program.size ∧
      (s.extended address).cursorBehind trace = s.program.size) := by
  unfold cursorBehind
  cases trace.target? with
  | none =>
    rcases Nat.lt_or_ge (s.cursor + 1) s.program.size with hlt | hge
    · exact .inl ⟨hlt, rfl⟩
    · have hend : s.cursor + 1 = s.program.size := by omega
      exact .inr (.inr ⟨rfl, hend, hend⟩)
  | some target =>
    simp only [indexOf?_extended hs, size_extended]
    cases hindex : s.program.indexOf? s.search target with
    | none => exact .inr (.inl ⟨by simp, rfl, rfl⟩)
    | some k => exact .inl ⟨Program.lt_size_of_indexFrom? hindex, rfl⟩

/-- A step of the longer program reports the same, and behind it both go on alike, or both are
over, or only the shorter one is since its last line was left. -/
theorem step_extended (hs : s.program.IsUnambiguous) (h : s.hasNextStep = true) (address : Word) :
    (s.extended address).step.1 = s.step.1 ∧
    ((s.step.2.hasNextStep = true ∧ (s.extended address).step.2 = s.step.2.extended address) ∨
    (s.step.2.hasNextStep = false ∧ (s.extended address).step.2.hasNextStep = false ∧
      (s.extended address).step.2.cpu = s.step.2.cpu ∧
      (s.extended address).step.2.status = s.step.2.status ∧
      ¬(s.step.2.status = .completed ∧ s.step.1.target? = none)) ∨
    (s.step.2.hasNextStep = false ∧ s.step.2.status = .completed ∧ s.step.1.target? = none ∧
      s.step.2.cursor = s.step.2.program.size ∧
      (s.extended address).step.2 = { s.step.2.extended address with status := .running })) := by
  obtain ⟨hstatus, hcursor⟩ := hasNextStep_eq_true h
  have hstatus' : (s.extended address).status = .running := hstatus
  rcases Nat.lt_or_ge s.steps s.limit with hlimit | hlimit
  · have he : s.program.entries[s.cursor]? = some s.program.entries[s.cursor] :=
      List.getElem?_eq_getElem hcursor
    generalize s.program.entries[s.cursor] = e at he
    have he' : (s.extended address).program.entries[(s.extended address).cursor]? = some e := by
      show (s.program.entries ++ [_])[s.cursor]? = some e
      rw [List.getElem?_append_left hcursor, he]
    obtain ⟨htrace, hcpu⟩ := carryOut_congr (s := s.extended address) (t := s) rfl e.line
    rw [step_eq_of_line hstatus hlimit he, step_eq_of_line hstatus' hlimit he', htrace, hcpu]
    refine ⟨rfl, ?_⟩
    -- Only the cursor can tell the two programs apart.
    rcases cursorBehind_extended hs address (s.carryOut e.line).1 hcursor with
      ⟨hlt, hsame⟩ | ⟨htarget, hend, hbehind⟩ | ⟨htarget, hend, hsame⟩
    · refine .inl ⟨by simp [hasNextStep, hlt], ?_⟩
      rw [hsame, size_extended, if_pos hlt, if_pos (by omega)]
      rfl
    · refine .inr (.inl ⟨?_, ?_, rfl, ?_, fun hc => htarget hc.2⟩)
      · simp [hasNextStep, hend]
      · simp [hasNextStep, hbehind]
      · simp [hend, hbehind]
    · refine .inr (.inr ⟨by simp [hasNextStep, hend], by simp [hend], htarget, hend, ?_⟩)
      rw [hsame, size_extended, if_pos (Nat.lt_succ_self _), hend]
      rfl
  · rw [step_of_limit hstatus hlimit, step_of_limit hstatus' hlimit]
    exact ⟨rfl, .inr (.inl ⟨rfl, rfl, rfl, rfl, by simp⟩)⟩

/-! ## Runs -/

/-- Whether a run was completed by leaving its last line and not by a transfer of control. -/
def LeavesLastLine (run : List Trace × Session) : Prop :=
  run.2.status = .completed ∧ ∃ trace, run.1.getLast? = some trace ∧ trace.target? = none

/-- How the run of a program with one more blank line compares to the run of the program. -/
inductive Outruns (short long : List Trace × Session) : Prop where
  /-- The blank line is never reached. -/
  | never (hleaves : ¬LeavesLastLine short) (hlog : long.1 = short.1)
      (hstatus : long.2.status = short.2.status)
  /-- The blank line takes a step. -/
  | skips (hleaves : LeavesLastLine short) (hroom : short.2.steps < short.2.limit)
      (hlog : long.1 = short.1 ++ [.blank short.2.cpu.pc]) (hstatus : long.2.status = .completed)
  /-- The blank line is reached, and there is no step left for it. -/
  | stops (hleaves : LeavesLastLine short) (hspent : short.2.limit ≤ short.2.steps)
      (hlog : long.1 = short.1 ++ [.limitReached short.2.limit])
      (hstatus : long.2.status = .halted)

theorem Outruns.cons {short long : List Trace × Session} (h : Outruns short long)
    (hne : short.1 ≠ []) (trace : Trace) :
    Outruns (trace :: short.1, short.2) (trace :: long.1, long.2) := by
  have hleaves : LeavesLastLine (trace :: short.1, short.2) ↔ LeavesLastLine short := by
    unfold LeavesLastLine
    rw [List.getLast?_cons_of_ne_nil hne]
  cases h with
  | never hnot hlog hstatus => exact .never (mt hleaves.1 hnot) (by rw [hlog]) hstatus
  | skips hleft hroom hlog hstatus =>
    exact .skips (hleaves.2 hleft) hroom (by rw [hlog]; rfl) hstatus
  | stops hleft hspent hlog hstatus =>
    exact .stops (hleaves.2 hleft) hspent (by rw [hlog]; rfl) hstatus

theorem run_blank (hstatus : s.status = .running) (hcursor : s.cursor + 1 = s.program.size)
    (he : s.program.entries[s.cursor]? = some ⟨address, .blank⟩) :
    s.run.2.cpu = s.cpu ∧
      ((s.limit ≤ s.steps ∧ s.run.1 = [.limitReached s.limit] ∧ s.run.2.status = .halted) ∨
      (s.steps < s.limit ∧ s.run.1 = [.blank s.cpu.pc] ∧ s.run.2.status = .completed)) := by
  have hnext : s.hasNextStep = true := by
    simp only [hasNextStep, hstatus, Bool.and_eq_true, decide_eq_true_eq]
    exact ⟨rfl, by omega⟩
  rw [run_of_hasNextStep hnext]
  rcases Nat.lt_or_ge s.steps s.limit with hlimit | hlimit
  · have hend : s.step.2.status = .completed := by
      rw [step_eq_of_line hstatus hlimit he]
      simp [cursorBehind, carryOut, Trace.target?, hcursor]
    rw [run_of_not_hasNextStep (s := s.step.2) (by simp [hasNextStep, hend])]
    refine ⟨?_, .inr ⟨hlimit, ?_, hend⟩⟩ <;> rw [step_of_line hstatus hlimit he] <;> rfl
  · rw [step_of_limit hstatus hlimit, run_of_not_hasNextStep rfl]
    exact ⟨rfl, .inl ⟨hlimit, rfl, rfl⟩⟩

/-- **A blank line behind a program** does not change the processor. If the last line of the program
is left, the blank line takes one more step or finds none left. -/
theorem run_extended {s : Session} (hs : s.program.IsUnambiguous) (h : s.hasNextStep = true)
    (address : Word) :
    (s.extended address).run.2.cpu = s.run.2.cpu ∧ Outruns s.run (s.extended address).run := by
  obtain ⟨htrace, hbehind⟩ := step_extended hs h address
  rw [run_of_hasNextStep h, run_of_hasNextStep (hasNextStep_extended h), htrace]
  rcases hbehind with ⟨hnext, hstep⟩ | ⟨hover, hover', hcpu, hstatus, hnot⟩ |
    ⟨hover, hstatus, htarget, hcursor, hstep⟩
  · -- Both go on: the induction is on the steps that remain to the shorter program.
    have := remaining_step_lt h
    obtain ⟨hcpu, houtruns⟩ := run_extended (s.program_step ▸ hs) hnext address
    rw [hstep]
    exact ⟨hcpu, houtruns.cons (by rw [run_of_hasNextStep hnext]; simp) _⟩
  · rw [run_of_not_hasNextStep hover, run_of_not_hasNextStep hover']
    refine ⟨hcpu, .never ?_ rfl hstatus⟩
    rintro ⟨hdone, trace, hlast, hnone⟩
    rw [List.getLast?_singleton, Option.some.injEq] at hlast
    exact hnot ⟨hdone, hlast ▸ hnone⟩
  · -- The last line was left, so the longer program has its blank line before it.
    have hleaves : LeavesLastLine ([s.step.1], s.step.2) := ⟨hstatus, s.step.1, rfl, htarget⟩
    have he : (s.step.2.extended address).program.entries[s.step.2.cursor]? =
        some ⟨address, .blank⟩ := by
      rw [hcursor, Program.size]
      simp [extended]
    have hlast : s.step.2.cursor + 1 = (s.step.2.extended address).program.size := by
      rw [size_extended, hcursor]
    obtain ⟨hcpu, hend⟩ :=
      run_blank (s := { s.step.2.extended address with status := .running }) rfl hlast he
    rw [hstep, run_of_not_hasNextStep hover]
    refine ⟨hcpu, ?_⟩
    rcases hend with ⟨hspent, hlog, hhalted⟩ | ⟨hroom, hlog, hdone⟩
    · exact .stops hleaves hspent (by rw [hlog]; rfl) hhalted
    · exact .skips hleaves hroom (by rw [hlog]; rfl) hdone
termination_by s.remaining

/-- Whether two runs end in the same status with the same reports, those of blank lines aside. -/
def SameRun (r t : List Trace × Session) : Prop :=
  t.2.status = r.2.status ∧ t.1.filter (!·.isBlank) = r.1.filter (!·.isBlank)

theorem Outruns.sameRun_iff {short long : List Trace × Session} (h : Outruns short long) :
    SameRun short long ↔ ¬(LeavesLastLine short ∧ short.2.limit ≤ short.2.steps) := by
  cases h with
  | never hleaves hlog hstatus =>
    exact iff_of_true ⟨hstatus, by rw [hlog]⟩ fun hc => hleaves hc.1
  | skips hleaves hroom hlog hstatus =>
    refine iff_of_true ⟨hstatus.trans hleaves.1.symm, ?_⟩ fun hc => absurd hc.2 (Nat.not_le.2 hroom)
    rw [hlog, List.filter_append]
    simp [Trace.isBlank]
  | stops hleaves hspent hlog hstatus =>
    refine iff_of_false (fun hc => ?_) fun hc => hc ⟨hleaves, hspent⟩
    have hdone := hc.1.trans hleaves.1
    rw [hstatus] at hdone
    cases hdone

/-- A blank line behind a program shows when no line is run, or when the last line is left with the
ceiling used up. -/
theorem sameRun_extended_iff (hs : s.program.IsUnambiguous) (hstatus : s.status = .running)
    (hcursor : s.cursor ≤ s.program.size) (address : Word) :
    (s.extended address).run.2.cpu = s.run.2.cpu ∧
    (SameRun s.run (s.extended address).run ↔
      s.run.1 ≠ [] ∧ ¬(LeavesLastLine s.run ∧ s.run.2.limit ≤ s.run.2.steps)) := by
  cases hnext : s.hasNextStep with
  | true =>
    obtain ⟨hcpu, houtruns⟩ := run_extended hs hnext address
    have hne : s.run.1 ≠ [] := by
      rw [run_of_hasNextStep hnext]
      exact List.cons_ne_nil _ _
    exact ⟨hcpu, houtruns.sameRun_iff.trans (and_iff_right hne).symm⟩
  | false =>
    have hend : s.cursor = s.program.size := by
      have hge : s.program.size ≤ s.cursor := by simpa [hasNextStep, hstatus] using hnext
      omega
    have he : (s.extended address).program.entries[(s.extended address).cursor]? =
        some ⟨address, .blank⟩ := by
      show (s.program.entries ++ [_])[s.cursor]? = _
      rw [hend, Program.size, List.getElem?_concat_length]
    obtain ⟨hcpu, hblank⟩ := run_blank (s := s.extended address) hstatus
      (by rw [size_extended]; exact congrArg (· + 1) hend) he
    rw [run_of_not_hasNextStep hnext]
    refine ⟨hcpu, iff_of_false (fun hc => ?_) fun hc => hc.1 rfl⟩
    have hrunning : (s.extended address).run.2.status = .running := hc.1.trans hstatus
    rcases hblank with ⟨-, -, h⟩ | ⟨-, -, h⟩ <;> rw [h] at hrunning <;> cases hrunning

end Session

/-! ## The two texts -/

theorem Program.place_concat (base : Word) (ls : List CodeLine) (l : CodeLine) :
    place base (ls ++ [l]) =
      place base ls ++ [⟨base + UInt16.ofNat (ls.flatMap CodeLine.code).length, l⟩] := by
  induction ls generalizing base with
  | nil => simp [place]
  | cons m rest ih =>
    simp only [List.cons_append, place, ih, List.flatMap_cons, List.length_append, UInt16.ofNat_add,
      UInt16.add_assoc]

namespace Assembly

variable {a : Assembly}

theorem parse_with_lineFeed (h : ∀ l ∈ a.lines, l.outcome.IsReadable) (hne : a.lines ≠ [])
    (base : Word) :
    Program.parse (a.machineCode ++ "\n") base =
      ⟨Program.place base (a.lines.map fun l => l.outcome.toCodeLine)⟩ := by
  have hread : ∀ o ∈ a.lines.map PlacedLine.outcome, o.IsReadable := by simpa using h
  have hlines := LineOutcome.parse_joinLines_concat hread (by simpa using hne)
  rw [List.map_map, List.map_map] at hlines
  exact congrArg (fun ls => Program.mk (Program.place base ls)) hlines

theorem parse_with_lineFeed_of_not_endsEmpty (h : ∀ l ∈ a.lines, l.outcome.IsReadable)
    (hne : a.lines ≠ []) (hends : ¬a.EndsEmpty) (base : Word) :
    Program.parse (a.machineCode ++ "\n") base = Program.parse a.machineCode base := by
  rw [parse_with_lineFeed h hne, parse_machineCode_eq h, savedLines, if_neg hends]

/-- Any other text holds one more line with a line feed behind, and that is blank. -/
theorem parse_with_lineFeed_of_endsEmpty (h : ∀ l ∈ a.lines, l.outcome.IsReadable)
    (hends : a.lines = [] ∨ a.EndsEmpty) (base : Word) :
    ∃ address, (Program.parse (a.machineCode ++ "\n") base).entries =
      (Program.parse a.machineCode base).entries ++ [⟨address, .blank⟩] := by
  rcases hends with hnil | hends
  · refine ⟨base, ?_⟩
    rw [machineCode, hnil]
    rfl
  · obtain ⟨l, hl, hempty⟩ := Option.map_eq_some_iff.1 hends
    obtain ⟨front, hfront⟩ := List.getLast?_eq_some_iff.1 hl
    have hne : a.lines ≠ [] := by simp [hfront]
    refine ⟨base + UInt16.ofNat
      ((front.map fun l => l.outcome.toCodeLine).flatMap CodeLine.code).length, ?_⟩
    rw [parse_with_lineFeed h hne, parse_machineCode_eq h, savedLines, if_pos hends]
    simp only [hfront, List.map_append, List.map_singleton, List.dropLast_concat, hempty]
    exact Program.place_concat ..

end Assembly

/-- **Running machine code text with a line feed behind it.** If the last line of the source is not
empty it is the same run as without. With no more bytes than addresses the processor ends in the
same state in any case. The status is then the same and so are the reports, those of blank lines
aside, exactly when the last line of the source is not empty, or some line is run and the last line
is not left with the ceiling used up. -/
theorem Session.run_with_lineFeed_iff (s : Session) (source : Text) :
    let a := assemble source
    let direct := (s.load a.machineCode).run
    let saved := (s.load (a.machineCode ++ "\n")).run
    (a.lines ≠ [] → ¬a.EndsEmpty → saved = direct) ∧
    (a.image.length ≤ 65536 →
      saved.2.cpu = direct.2.cpu ∧
      (SameRun direct saved ↔
        (a.lines ≠ [] ∧ ¬a.EndsEmpty) ∨
          (direct.1 ≠ [] ∧ ¬(LeavesLastLine direct ∧ direct.2.limit ≤ direct.2.steps)))) := by
  dsimp only
  have hread : ∀ l ∈ (assemble source).lines, l.outcome.IsReadable :=
    Assembler.isReadable_of_mem_lines source loadAddress
  generalize assemble source = a at hread
  have hsame (hne : a.lines ≠ []) (hends : ¬a.EndsEmpty) :
      s.load (a.machineCode ++ "\n") = s.load a.machineCode := by
    rw [load, a.parse_with_lineFeed_of_not_endsEmpty hread hne hends]
    rfl
  refine ⟨fun hne hends => by rw [hsame hne hends], fun hsize => ?_⟩
  by_cases hends : a.lines = [] ∨ a.EndsEmpty
  · obtain ⟨address, hentries⟩ := a.parse_with_lineFeed_of_endsEmpty hread hends loadAddress
    have hprogram : Program.parse (a.machineCode ++ "\n") loadAddress =
        ⟨(Program.parse a.machineCode loadAddress).entries ++ [⟨address, .blank⟩]⟩ := by
      rw [← hentries]
    have hload : s.load (a.machineCode ++ "\n") = (s.load a.machineCode).extended address := by
      rw [load, hprogram]
      rfl
    have hnot : ¬(a.lines ≠ [] ∧ ¬a.EndsEmpty) := by
      rcases hends with h | h <;> simp [h]
    obtain ⟨hcpu, hiff⟩ := sameRun_extended_iff (s := s.load a.machineCode)
      (Program.isUnambiguous_machineCode hread hsize loadAddress) rfl (Nat.zero_le _) address
    rw [hload]
    exact ⟨hcpu, hiff.trans (or_iff_right hnot).symm⟩
  · have hboth : a.lines ≠ [] ∧ ¬a.EndsEmpty := not_or.1 hends
    rw [hsame hboth.1 hboth.2]
    exact ⟨rfl, iff_of_true ⟨rfl, rfl⟩ (.inl hboth)⟩

/-- The empty line takes one more step if there is room for it. -/
theorem Session.run_with_lineFeed_of_room :
    let s := idle .byHalves
    let a := assemble "NOP\n\n"
    a.image.length ≤ 65536 ∧ (s.load a.machineCode).run.2.steps < s.limit ∧
      SameRun (s.load a.machineCode).run (s.load (a.machineCode ++ "\n")).run := by
  have hsize : (assemble "NOP\n\n").image.length ≤ 65536 := by decide +kernel
  have hroom : ((idle .byHalves).load (assemble "NOP\n\n").machineCode).run.2.steps <
      ((idle .byHalves).load (assemble "NOP\n\n").machineCode).run.2.limit := by decide +kernel
  obtain ⟨-, hbounded⟩ := run_with_lineFeed_iff (idle .byHalves) "NOP\n\n"
  refine ⟨hsize, hroom, (hbounded hsize).2.2 (.inr ⟨?_, fun h => Nat.not_le.2 hroom h.2⟩)⟩
  decide +kernel

/-- An instruction in front of an empty line uses the ceiling up: with the line feed the run is
halted, without it is completed. -/
theorem Session.run_with_lineFeed_halts :
    let s := (idle .byHalves).withLimit 1
    let a := assemble "NOP\n\n"
    (s.load a.machineCode).run.2.status = .completed ∧
      (s.load (a.machineCode ++ "\n")).run.2.status = .halted := by
  decide +kernel

end Mc6800
