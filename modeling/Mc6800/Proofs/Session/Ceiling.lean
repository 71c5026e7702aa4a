import Mc6800.Proofs.Session.Steps

/-!
# Runs under different step ceilings

A step looks at the ceiling only to see whether it is hit. So a session under a lower ceiling runs
like the same session under its own until the lower one is hit, and then stops with a notice
(`Session.cutShort`). Seen from a fresh load: the run under the lower ceiling is the other one, or
its first steps and the notice (`Session.run_withLimit`).
-/

set_option autoImplicit false

namespace Mc6800

/-- Whether the step ceiling is reported. -/
def Trace.isLimitReached : Trace → Bool
  | limitReached _ => true
  | _ => false

theorem Trace.of_not_isNotice {t : Trace} (h : t.isNotice = false) :
    t.isLimitReached = false ∧ t ≠ .completed ∧ t ≠ .notLoaded := by
  cases t with
  | limitReached _ | completed | notLoaded => cases h
  | executed _ _ _ | blank _ | undecodable _ _ | unknownOpcode _ _ => exact ⟨rfl, by simp, by simp⟩

theorem Trace.filter_not_isLimitReached {log : List Trace}
    (h : ∀ trace ∈ log, trace.isNotice = false) : log.filter (!·.isLimitReached) = log := by
  refine List.filter_eq_self.2 fun trace htrace => ?_
  rw [(of_not_isNotice (h trace htrace)).1]
  rfl

namespace Session

variable {s : Session} {n : Nat}

/-! ## One step -/

theorem isNotice_carryOut (s : Session) (line : CodeLine) :
    (s.carryOut line).1.isNotice = false := by
  unfold carryOut
  split
  · rfl
  · rfl
  · split <;> rfl

/-- Below both ceilings a step does the same under either. -/
theorem step_withLimit (hnext : s.hasNextStep = true) (hn : s.steps < n)
    (hlimit : s.steps < s.limit) :
    (s.withLimit n).step = (s.step.1, s.step.2.withLimit n) ∧ s.step.1.isNotice = false ∧
      s.step.2.steps = s.steps + 1 ∧ s.step.2.limit = s.limit ∧ s.step.2.status ≠ .halted := by
  obtain ⟨hstatus, hcursor⟩ := hasNextStep_eq_true hnext
  have he : s.program.entries[s.cursor]? = some s.program.entries[s.cursor] :=
    List.getElem?_eq_getElem hcursor
  generalize s.program.entries[s.cursor] = e at he
  obtain ⟨htrace, hcpu⟩ := carryOut_congr (s := s.withLimit n) (t := s) rfl e.line
  rw [step_eq_of_line hstatus hlimit he, step_eq_of_line (s := s.withLimit n) hstatus hn he, htrace,
    hcpu]
  refine ⟨rfl, s.isNotice_carryOut e.line, rfl, rfl, ?_⟩
  dsimp only
  split <;> simp

/-! ## Runs -/

/-- How the run under the ceiling `n` compares to the run of a session. -/
inductive CutShort (n : Nat) (s : Session) : Prop where
  /-- The ceiling is not hit, and the runs are the same. -/
  | never (hrun : (s.withLimit n).run = (s.run.1, s.run.2.withLimit n))
      (hstatus : s.run.2.status ≠ .halted) (hlength : s.steps + s.run.1.length ≤ n)
      (hnotices : ∀ trace ∈ s.run.1, trace.isNotice = false)
  /-- The ceiling is hit behind the first `k` steps of the run. -/
  | behind (k : Nat)
      (hrun : (s.withLimit n).run = ((stepFor k s).1 ++ [.limitReached n],
        { (stepFor k s).2.withLimit n with status := .halted }))
      (hsteps : (stepFor k s).2.steps = n) (hk : s.steps + k = n) (hlength : k ≤ s.run.1.length)
      (hnotices : ∀ trace ∈ (stepFor k s).1, trace.isNotice = false)

/-- One more step in front, under neither ceiling. -/
theorem CutShort.step (hnext : s.hasNextStep = true) (hn : s.steps < n) (hlimit : s.steps < s.limit)
    (h : CutShort n s.step.2) : CutShort n s := by
  obtain ⟨hstep, hnotice, hsteps, -, -⟩ := step_withLimit hnext hn hlimit
  have hshort : (s.withLimit n).run =
      (s.step.1 :: (s.step.2.withLimit n).run.1, (s.step.2.withLimit n).run.2) := by
    rw [run_of_hasNextStep (s := s.withLimit n) hnext, hstep]
  have hlong := run_of_hasNextStep hnext
  cases h with
  | never hrun hstatus hlength hnotices =>
    rw [hrun] at hshort
    refine .never (by rw [hshort, hlong]) (by rwa [hlong]) ?_ ?_
    · rw [hlong, List.length_cons]
      omega
    · rw [hlong]
      exact List.forall_mem_cons.2 ⟨hnotice, hnotices⟩
  | behind k hrun hsteps' hk hlength hnotices =>
    rw [hrun] at hshort
    refine .behind (k + 1) hshort hsteps' (by omega) ?_ ?_
    · rw [hlong, List.length_cons]
      omega
    · exact List.forall_mem_cons.2 ⟨hnotice, hnotices⟩

/-- **A ceiling cuts a run short** or leaves it as it is. -/
theorem cutShort {s : Session} (hstatus : s.status ≠ .halted) (hsteps : s.steps ≤ n)
    (hn : n ≤ s.limit) : CutShort n s := by
  cases hnext : s.hasNextStep with
  | false =>
    have hshort := run_of_not_hasNextStep (s := s.withLimit n) hnext
    have hlong := run_of_not_hasNextStep hnext
    exact .never (by rw [hshort, hlong]) (by rwa [hlong]) (by simpa [hlong] using hsteps)
      (by simp [hlong])
  | true =>
    rcases Nat.lt_or_ge s.steps n with hlt | hge
    · -- The induction is on the steps that the lower ceiling leaves.
      have hlimit : s.steps < s.limit := by omega
      obtain ⟨-, -, hsteps', hlimit', hstatus'⟩ := step_withLimit hnext hlt hlimit
      exact .step hnext hlt hlimit (cutShort hstatus' (by omega) (by omega))
    · have hspent : s.steps = n := by omega
      have hrunning := (hasNextStep_eq_true hnext).1
      refine .behind 0 ?_ hspent (by omega) (Nat.zero_le _) (by simp [stepFor])
      rw [run_of_hasNextStep (s := s.withLimit n) hnext,
        step_of_limit (s := s.withLimit n) hrunning hge, run_of_not_hasNextStep rfl]
      rfl
termination_by n - s.steps

/-- **A lower ceiling only cuts a run short.** From a fresh load every run ends: its log is as many
steps as there are, at most one more than its ceiling. If it is not halted, it is the same run as
under any higher ceiling. If it is, it has spent its ceiling on the first steps of the other run and
stands behind them, and the notice comes last. No run reports anything else that concerns no
line. -/
theorem run_withLimit (s : Session) (code : Text) {n m : Nat} (h : n ≤ m) :
    let start := (s.withLimit n).load code
    let higher := (s.withLimit m).load code
    (start.run = stepFor start.run.1.length start ∧ start.run.2.hasNextStep = false ∧
      ∀ k < start.run.1.length, (stepFor k start).2.hasNextStep = true) ∧
    start.run.1.length ≤ n + 1 ∧
    start.run.1.filter (!·.isLimitReached) <+: higher.run.1 ∧
    (start.run.2.status ≠ .halted → start.run = (higher.run.1, higher.run.2.withLimit n)) ∧
    (start.run.2.status = .halted →
      start.run.1 = (stepFor n higher).1 ++ [.limitReached n] ∧
        (stepFor n higher).1.length = n ∧ (stepFor n higher).1 <+: higher.run.1 ∧
        start.run.2.steps = n ∧ start.run.2.cpu = (stepFor n higher).2.cpu) ∧
    (∀ trace ∈ start.run.1.dropLast, trace.isLimitReached = false) ∧
    ∀ trace ∈ start.run.1, trace ≠ .completed ∧ trace ≠ .notLoaded := by
  intro start higher
  have hstart : start = higher.withLimit n := rfl
  refine ⟨start.run_eq_stepFor, ?_⟩
  have hzero : higher.steps = 0 := rfl
  rcases cutShort (s := higher) (n := n) (by simp [higher, load]) (Nat.zero_le n) h with
    ⟨hrun, hstatus, hlength, hnotices⟩ | ⟨k, hrun, hsteps, hk, hlength, hnotices⟩
  · rw [hstart, hrun]
    refine ⟨?_, ?_, fun _ => rfl, fun hhalted => absurd hhalted hstatus, fun trace htrace => ?_,
      fun trace htrace => (Trace.of_not_isNotice (hnotices trace htrace)).2⟩
    · show higher.run.1.length ≤ n + 1
      omega
    · simp only [Trace.filter_not_isLimitReached hnotices, List.prefix_refl]
    · exact (Trace.of_not_isNotice (hnotices trace (List.dropLast_subset _ htrace))).1
  · obtain rfl : k = n := by omega
    have hfront := length_stepFor k higher
    have hprefix : (stepFor k higher).1 <+: higher.run.1 := by
      rw [higher.run_eq_stepFor.1]
      exact stepFor_isPrefix hlength higher
    rw [hstart, hrun]
    refine ⟨by simp [hfront], ?_, fun hc => absurd rfl hc,
      fun _ => ⟨rfl, hfront, hprefix, hsteps, rfl⟩, fun trace htrace => ?_, fun trace htrace => ?_⟩
    · rw [List.filter_append, Trace.filter_not_isLimitReached hnotices]
      simpa [Trace.isLimitReached] using hprefix
    · rw [List.dropLast_concat] at htrace
      exact (Trace.of_not_isNotice (hnotices trace htrace)).1
    · rcases List.mem_append.1 htrace with hfront | hlast
      · exact (Trace.of_not_isNotice (hnotices trace hfront)).2
      · rw [List.mem_singleton.1 hlast]
        exact ⟨by simp, by simp⟩

/-- A branch to itself uses up any ceiling: under the ceiling two its run is halted behind the first
two steps of the run under the ceiling five. A lone instruction is run alike under both. -/
theorem run_withLimit_loop :
    let low := (idle .byHalves).withLimit 2
    let high := (idle .byHalves).withLimit 5
    2 ≤ 5 ∧
    ((low.load "20 FE").run.2.status = .halted ∧
      (low.load "20 FE").run.1 = (stepFor 2 (high.load "20 FE")).1 ++ [.limitReached 2]) ∧
    ((low.load "4C").run.2.status ≠ .halted ∧
      (low.load "4C").run.1 = (high.load "4C").run.1) := by
  intro low high
  have hle : 2 ≤ 5 := by decide
  have hhalted : (low.load "20 FE").run.2.status = .halted := by decide +kernel
  have hover : (low.load "4C").run.2.status ≠ .halted := by decide +kernel
  obtain ⟨-, -, -, -, hcut, -, -⟩ := run_withLimit (idle .byHalves) "20 FE" hle
  obtain ⟨-, -, -, hwhole, -, -, -⟩ := run_withLimit (idle .byHalves) "4C" hle
  exact ⟨hle, ⟨hhalted, (hcut hhalted).1⟩, hover, by rw [hwhole hover]⟩

end Session

end Mc6800
