import Mc6800.Proofs.MachineCode.RoundTrip
import Mc6800.Proofs.Source.IdleLines

/-!
# Assembling with and without idle lines

An empty statement leaves both passes where they are, so without it they come to the same labels and
the same origin, and put the other lines at the same addresses
(`Assembler.assemble_of_codeLines`). In the machine code text it is a blank line, or is lost at the
end; the program has the same lines besides (`Program.codeEntries_of_codeLines`).
-/

set_option autoImplicit false

namespace Mc6800

/-! ## Passes -/

theorem Survey.next_empty (v : Survey) : v.next .empty = v := by
  have hstay : v.location + UInt16.ofNat 0 = v.location := UInt16.add_zero _
  show (⟨v.location + UInt16.ofNat 0, v.origin, v.labels⟩ : Survey) = v
  rw [hstay]

theorem Emission.next_empty (e : Emission) : e.next .empty .empty = e := by
  have hstay : e.location + UInt16.ofNat 0 = e.location := UInt16.add_zero _
  show (⟨e.location + UInt16.ofNat 0, e.origin⟩ : Emission) = e
  rw [hstay]

theorem Survey.ofStatements_filter (base : Word) (statements : List Statement) :
    ofStatements base (statements.filter (· ≠ .empty)) = ofStatements base statements := by
  unfold ofStatements
  generalize start base = v
  induction statements generalizing v with
  | nil => rfl
  | cons s rest ih =>
    by_cases hs : s = .empty
    · rw [List.filter_cons_of_neg (by simp [hs]), ih, List.foldl_cons, hs, v.next_empty]
    · rw [List.filter_cons_of_pos (by simp [hs]), List.foldl_cons, List.foldl_cons, ih]

/-- The lines that are not empty, where they lie. -/
def PlacedLine.filled (lines : List PlacedLine) : List PlacedLine :=
  lines.filter (·.outcome ≠ .empty)

theorem Assembly.image_eq_flatMap_filled (a : Assembly) :
    a.image = (PlacedLine.filled a.lines).flatMap fun l => l.outcome.code := by
  rw [image, PlacedLine.filled]
  induction a.lines with
  | nil => rfl
  | cons l rest ih =>
    by_cases hl : l.outcome = .empty
    · rw [List.filter_cons_of_neg (by simp [hl]), List.flatMap_cons, ih, hl]
      rfl
    · rw [List.filter_cons_of_pos (by simp [hl]), List.flatMap_cons, List.flatMap_cons, ih]

/-- Lines that are empty have no part in an image. -/
theorem Assembly.image_congr {a b : Assembly}
    (h : PlacedLine.filled b.lines = PlacedLine.filled a.lines) : b.image = a.image := by
  rw [image_eq_flatMap_filled, h, ← image_eq_flatMap_filled]

theorem Emission.filled_run_filter (labels : LabelTable) (e : Emission)
    (statements : List Statement) :
    PlacedLine.filled (run labels e (statements.filter (· ≠ .empty))).1 =
        PlacedLine.filled (run labels e statements).1 := by
  induction statements generalizing e with
  | nil => rfl
  | cons s rest ih =>
    by_cases hs : s = .empty
    · have hnext : e.next s (s.outcome labels e.location) = e := by
        rw [hs]
        exact e.next_empty
      have hempty : s.outcome labels e.location = .empty := by rw [hs]; rfl
      rw [List.filter_cons_of_neg (by simp [hs]), ih]
      simp only [run, hnext, PlacedLine.filled]
      rw [List.filter_cons_of_neg (by simp [hempty])]
    · rw [List.filter_cons_of_pos (by simp [hs])]
      simp only [run, PlacedLine.filled] at ih ⊢
      rw [List.filter_cons, List.filter_cons, ih]

namespace Assembler

theorem lines_assemble (a : Assembler) :
    a.assemble.lines = (Emission.run a.firstPass.labels (.start a.base) a.statements).1 := rfl

/-- The code lines of a source decide its labels, its origin and its lines that are not empty. -/
theorem assemble_of_codeLines {source other : Text} (h : codeLines other = codeLines source)
    (base : Word) :
    let a := ((ofSource source).withOrigin base).assemble
    let b := ((ofSource other).withOrigin base).assemble
    b.labels = a.labels ∧ b.origin = a.origin ∧
      PlacedLine.filled b.lines = PlacedLine.filled a.lines := by
  have hstatements : ((ofSource other).withOrigin base).statements.filter (· ≠ .empty) =
      ((ofSource source).withOrigin base).statements.filter (· ≠ .empty) := by
    simp only [withOrigin, ofSource, ofLines]
    rw [filter_parse_lines, filter_parse_lines, h]
  have hsurvey : Survey.ofStatements base ((ofSource other).withOrigin base).statements =
      Survey.ofStatements base ((ofSource source).withOrigin base).statements := by
    rw [← Survey.ofStatements_filter, hstatements, Survey.ofStatements_filter]
  have hlabels : ((ofSource other).withOrigin base).firstPass.labels =
      ((ofSource source).withOrigin base).firstPass.labels := congrArg Survey.labels hsurvey
  refine ⟨hlabels, ?_, ?_⟩
  · rw [origin_assemble, origin_assemble]
    exact congrArg Survey.origin hsurvey
  · rw [lines_assemble, lines_assemble, ← Emission.filled_run_filter, hlabels, hstatements,
      Emission.filled_run_filter]
    rfl

end Assembler

/-! ## Programs -/

namespace Program

/-- The lines of a program that are not blank. -/
def codeEntries (p : Program) : List Entry := p.entries.filter (·.line ≠ .blank)

theorem filter_place (base : Word) (ls : List CodeLine) :
    (place base ls).filter (·.line ≠ .blank) = place base (ls.filter (· ≠ .blank)) := by
  induction ls generalizing base with
  | nil => rfl
  | cons l rest ih =>
    by_cases hl : l = .blank
    · have hstay : base + UInt16.ofNat l.code.length = base := by
        rw [hl]
        exact UInt16.add_zero _
      rw [place, hstay, List.filter_cons_of_neg (by simp [hl]),
        List.filter_cons_of_neg (by simp [hl]), ih]
    · rw [place, List.filter_cons_of_pos (by simp [hl]), List.filter_cons_of_pos (by simp [hl]), ih,
        place]

theorem codeEntries_parse_machineCode {a : Assembly} (h : ∀ l ∈ a.lines, l.outcome.IsReadable)
    (base : Word) :
    (parse a.machineCode base).codeEntries =
      place base ((PlacedLine.filled a.lines).map fun l => l.outcome.toCodeLine) := by
  obtain ⟨lost, hlines, hlost⟩ := a.exists_lines_eq_append
  have hfilled : PlacedLine.filled a.lines = PlacedLine.filled a.savedLines := by
    have hnil : PlacedLine.filled lost = [] :=
      List.filter_eq_nil_iff.2 fun l hl => by simp [hlost l hl]
    rw [PlacedLine.filled] at hnil
    rw [hlines, PlacedLine.filled, List.filter_append, hnil, List.append_nil, PlacedLine.filled]
  have hblank : ∀ l ∈ a.savedLines, (l.outcome.toCodeLine = .blank ↔ l.outcome = .empty) := by
    intro l hl
    have hread := h l (hlines ▸ List.mem_append_left lost hl)
    cases ho : l.outcome with
    | empty | fault _ _ => simp [LineOutcome.toCodeLine]
    | bytes code =>
      rw [ho] at hread
      obtain ⟨opcode, operands, rfl⟩ := List.exists_cons_of_ne_nil hread
      simp [LineOutcome.toCodeLine]
  rw [codeEntries, Assembly.parse_machineCode_eq h, filter_place, List.filter_map, hfilled,
    PlacedLine.filled]
  congr 2
  exact List.filter_congr fun l hl => by simp [hblank l hl]

/-- The lines of machine code, blank ones aside, come from the code lines of the source. -/
theorem codeEntries_of_codeLines {source other : Text} (h : codeLines other = codeLines source)
    (base load : Word) :
    let a := ((Assembler.ofSource source).withOrigin base).assemble
    let b := ((Assembler.ofSource other).withOrigin base).assemble
    (parse b.machineCode load).codeEntries = (parse a.machineCode load).codeEntries := by
  dsimp only
  rw [codeEntries_parse_machineCode (Assembler.isReadable_of_mem_lines other base),
    codeEntries_parse_machineCode (Assembler.isReadable_of_mem_lines source base),
    (Assembler.assemble_of_codeLines h base).2.2]

end Program

end Mc6800
