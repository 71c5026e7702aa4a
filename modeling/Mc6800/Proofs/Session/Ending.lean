import Mc6800.Proofs.Session.Ceiling

/-!
# How a run ends

A step that there is leaves a next one, or completes the session, or halts it with a notice
(`Session.step_ending`). So a run of at least one step ends completed or halted, and the notice
comes last exactly when it is halted (`Session.run_ending`). Only a text without lines gives no step
to run; that session stays as it was loaded (`Session.status_run_load`).
-/

set_option autoImplicit false

namespace Mc6800

/-! ## Texts without lines -/

theorem Text.lines_eq_nil_iff {t : Text} : lines t = [] ↔ t = [] := by
  constructor
  · intro h
    rw [← flatten_segments t, List.map_eq_nil_iff.1 h]
    rfl
  · rintro rfl
    rfl

theorem Program.size_parse (code : Text) (base : Word) :
    (parse code base).size = (Text.lines code).length := by
  rw [size, parse, length_place, List.length_map]

namespace Session

variable {s : Session}

/-- There is a next step behind a load unless the text is empty. -/
theorem hasNextStep_load (s : Session) (code : Text) :
    (s.load code).hasNextStep = true ↔ code ≠ [] := by
  have hsize : (s.load code).program.size = (Text.lines code).length :=
    Program.size_parse code loadAddress
  have hstatus : (s.load code).status = .running := rfl
  have hcursor : (s.load code).cursor = 0 := rfl
  rw [hasNextStep, hsize, hstatus, hcursor]
  simp only [beq_self_eq_true, Bool.true_and, decide_eq_true_eq, List.length_pos_iff, ne_eq,
    Text.lines_eq_nil_iff]

/-! ## One step -/

/-- A step that there is leaves a next one, or completes the session, or halts it; only the last
reports the ceiling. -/
theorem step_ending (h : s.hasNextStep = true) :
    (s.step.1.isLimitReached = false ∧ s.step.2.hasNextStep = true) ∨
    (s.step.1.isLimitReached = false ∧ s.step.2.status = .completed) ∨
    (s.step.1.isLimitReached = true ∧ s.step.2.status = .halted) := by
  obtain ⟨hstatus, hcursor⟩ := hasNextStep_eq_true h
  rcases s.step_cases with ⟨hne, -, -⟩ | ⟨-, -, hs⟩ | ⟨-, hover, -⟩ | ⟨e, -, -, -, hs⟩
  · exact absurd hstatus hne
  · rw [hs]
    exact .inr (.inr ⟨rfl, rfl⟩)
  · omega
  · have hrunning : (s.carryOut e.line).2.status = .running := by simpa using hstatus
    rw [hs]
    have hnotice := (Trace.of_not_isNotice (s.isNotice_carryOut e.line)).1
    rcases status_settle hrunning with ⟨hlt, hgoes⟩ | ⟨-, hdone⟩
    · refine .inl ⟨hnotice, ?_⟩
      have hlt : (s.carryOut e.line).2.settle.cursor < (s.carryOut e.line).2.settle.program.size :=
        hlt
      simp [hasNextStep, hgoes, hlt]
    · exact .inr (.inl ⟨hnotice, hdone⟩)

/-! ## Runs -/

/-- A run of at least one step ends completed, or halted with the notice as its last trace. -/
theorem run_ending {s : Session} (h : s.hasNextStep = true) :
    ∃ last, s.run.1.getLast? = some last ∧
      ((s.run.2.status = .completed ∧ last.isLimitReached = false) ∨
        (s.run.2.status = .halted ∧ last.isLimitReached = true)) := by
  have := remaining_step_lt h
  rw [run_of_hasNextStep h]
  dsimp only
  rw [List.getLast?_cons]
  rcases step_ending h with ⟨-, hnext⟩ | ⟨hnotice, hstatus⟩ | ⟨hnotice, hstatus⟩
  · obtain ⟨last, hlast, hend⟩ := run_ending hnext
    exact ⟨last, by rw [hlast, Option.getD_some], hend⟩
  · rw [run_of_not_hasNextStep (by simp [hasNextStep, hstatus])]
    exact ⟨s.step.1, rfl, .inl ⟨hstatus, hnotice⟩⟩
  · rw [run_of_not_hasNextStep (by simp [hasNextStep, hstatus])]
    exact ⟨s.step.1, rfl, .inr ⟨hstatus, hnotice⟩⟩
termination_by s.remaining

/-- **A run ends completed or halted unless there was nothing to run.** From a fresh load, under
every step ceiling, the status behind a run is final exactly when the text is not empty; an empty
text is loaded and stays so. The session is halted exactly when the last trace reports the
ceiling. -/
theorem status_run_load (s : Session) (code : Text) :
    let start := s.load code
    (start.run.2.status = .completed ∨ start.run.2.status = .halted ↔ code ≠ []) ∧
    (start.run = ([], start) ↔ code = []) ∧
    (start.run.2.status = .halted ↔
      ∃ last, start.run.1.getLast? = some last ∧ last.isLimitReached = true) := by
  intro start
  by_cases hcode : code = []
  · have hnext : start.hasNextStep = false := by
      rw [Bool.eq_false_iff]
      exact fun h => (s.hasNextStep_load code).1 h hcode
    have hstatus : start.status = .running := rfl
    rw [run_of_not_hasNextStep hnext]
    simp [hstatus, hcode]
  · have hnext : start.hasNextStep = true := (s.hasNextStep_load code).2 hcode
    obtain ⟨last, hlast, hend⟩ := run_ending hnext
    have hlog : start.run ≠ ([], start) := by
      intro h
      rw [h] at hlast
      cases hlast
    refine ⟨iff_of_true (hend.imp And.left And.left) hcode, iff_of_false hlog hcode, ?_⟩
    rw [hlast]
    rcases hend with ⟨hstatus, hnotice⟩ | ⟨hstatus, hnotice⟩
    · simp [hstatus, hnotice]
    · simp [hstatus, hnotice]

/-- Nothing is run of an empty text, and the session is neither completed nor halted, though one
more step completes it. -/
theorem status_run_load_empty :
    let final := ((idle .byHalves).load []).run.2
    (final.status ≠ .completed ∧ final.status ≠ .halted) ∧ final.step.2.status = .completed := by
  decide +kernel

end Session

end Mc6800
