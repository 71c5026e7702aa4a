import Mathlib.Data.List.TakeWhile
import Mc6800.Proofs.Text.Words
import Mc6800.Source.Statement

/-!
# Fields and the lines that they come from

Every field of a statement is a trimmed piece of its line and knows its place there
(`Statement.isIn_of_mem_fields`).
-/

set_option autoImplicit false

namespace Mc6800

/-! ## Scanning -/

namespace Text

theorem exists_trimEnd_append (t : Text) :
    ∃ blanks, AllBlank blanks ∧ t = trimEnd t ++ blanks := by
  refine ⟨(t.reverse.takeWhile isBlank).reverse, fun c hc => ?_, ?_⟩
  · exact List.mem_takeWhile_imp (List.mem_reverse.1 hc)
  · rw [trimEnd, ← List.reverse_append, List.takeWhile_append_dropWhile, List.reverse_reverse]

theorem isTrimmed_trimEnd {t : Text} {c : Char} (hc : c ∈ t.head?) (hcb : isBlank c = false) :
    IsTrimmed (trimEnd t) := by
  have hmem : c ∈ t.reverse := List.mem_reverse.2 (List.mem_of_head? hc)
  have hne : t.reverse.dropWhile isBlank ≠ [] := by
    intro h
    have := List.dropWhile_eq_nil_iff.1 h c hmem
    simp [hcb] at this
  have hend : trimEnd t ≠ [] := by simpa [trimEnd] using hne
  refine ⟨⟨c, ?_, hcb⟩, ⟨(t.reverse.dropWhile isBlank).head hne, ?_, ?_⟩⟩
  · obtain ⟨blanks, -, ht⟩ := exists_trimEnd_append t
    rw [ht, List.head?_append] at hc
    rwa [List.head?_eq_some_head hend] at hc ⊢
  · rw [trimEnd, List.getLast?_reverse]
    exact List.head?_eq_some_head hne
  · have := List.head_dropWhile_not isBlank hne
    simpa using this

end Text

/-- The field is a trimmed piece of the line and stands at its own place. -/
structure Field.IsIn (f : Field) (line : Text) : Prop where
  place : ∃ before after, line = before ++ f.text ++ after ∧ f.start = Text.size before
  trimmed : Text.IsTrimmed f.text

theorem Field.IsIn.slice? {f : Field} {line : Text} (h : f.IsIn line) :
    line.slice? f.span = some f.text := by
  obtain ⟨⟨before, after, rfl, hstart⟩, -⟩ := h
  rw [span, hstart]
  exact Text.slice?_append before f.text after

theorem Field.IsIn.append {f : Field} {line : Text} (h : f.IsIn line) (more : Text) :
    f.IsIn (line ++ more) := by
  obtain ⟨⟨before, after, rfl, hstart⟩, htrim⟩ := h
  exact ⟨⟨before, after ++ more, by simp, hstart⟩, htrim⟩

theorem Field.IsIn.subset {f : Field} {line : Text} (h : f.IsIn line) : f.text ⊆ line := by
  obtain ⟨⟨before, after, rfl, -⟩, -⟩ := h
  intro c hc
  simp [hc]

namespace Scanner

/-- What the scanner has passed and what is left make up the line. -/
def Reads (s : Scanner) (line : Text) : Prop :=
  ∃ passed, line = passed ++ s.rest ∧ s.position = Text.size passed

theorem reads_ofLine (line : Text) : (ofLine line).Reads line := ⟨[], rfl, rfl⟩

theorem Reads.skipWhile {s : Scanner} {line : Text} (h : s.Reads line) (p : Char → Bool) :
    (s.skipWhile p).Reads line := by
  obtain ⟨passed, rfl, hpos⟩ := h
  refine ⟨passed ++ s.rest.takeWhile p, ?_, ?_⟩
  · simp only [Scanner.skipWhile]
    rw [List.append_assoc, List.takeWhile_append_dropWhile]
  · simp only [Scanner.skipWhile]
    rw [Text.size_append, hpos]

theorem head?_skipBlanks {s : Scanner} {c : Char} (h : c ∈ s.skipBlanks.rest.head?) :
    Text.isBlank c = false := by
  have := List.head?_dropWhile_not Text.isBlank s.rest
  rw [Option.mem_def] at h
  simp only [skipBlanks, Scanner.skipWhile] at h
  rw [h] at this
  simpa using this

/-- A word is handed out with its place, and the scanner goes on in the same line. -/
theorem Reads.nextWord {s : Scanner} {line : Text} (h : s.Reads line) :
    (∀ f ∈ s.nextWord.1, f.IsIn line) ∧ s.nextWord.2.Reads line := by
  have hskip : s.skipBlanks.Reads line := h.skipWhile _
  unfold Scanner.nextWord
  dsimp only
  split
  · exact ⟨fun f hf => by simp at hf, hskip⟩
  · next hne =>
    refine ⟨fun f hf => ?_, hskip.skipWhile _⟩
    rw [Option.mem_def, Option.some.injEq] at hf
    subst hf
    obtain ⟨passed, hline, hpos⟩ := hskip
    obtain ⟨c, rest, hrest⟩ := List.exists_cons_of_ne_nil hne
    have hc : Text.isBlank c = false := head?_skipBlanks (s := s) (by rw [hrest]; rfl)
    refine ⟨⟨passed, s.skipBlanks.rest.dropWhile fun c => !Text.isBlank c, ?_, hpos⟩, ?_⟩
    · rw [hline, List.append_assoc, List.takeWhile_append_dropWhile]
    · refine Text.IsWord.isTrimmed ⟨?_, fun d hd => ?_⟩
      · simp [hrest, hc]
      · have := List.mem_takeWhile_imp hd
        simpa using this

/-- The remainder is handed out with its place. -/
theorem Reads.remainder {s : Scanner} {line : Text} (h : s.Reads line) :
    ∀ f ∈ s.remainder.1, f.IsIn line := by
  have hskip : s.skipBlanks.Reads line := h.skipWhile _
  intro f hf
  unfold Scanner.remainder at hf
  dsimp only at hf
  split at hf
  · simp at hf
  · next hne =>
    rw [Option.mem_def, Option.some.injEq] at hf
    subst hf
    obtain ⟨passed, hline, hpos⟩ := hskip
    obtain ⟨c, rest, hrest⟩ := List.exists_cons_of_ne_nil hne
    have hc : c ∈ s.skipBlanks.rest.head? := by rw [hrest]; rfl
    obtain ⟨blanks, -, hend⟩ := Text.exists_trimEnd_append s.skipBlanks.rest
    refine ⟨⟨passed, blanks, ?_, hpos⟩, Text.isTrimmed_trimEnd hc (head?_skipBlanks hc)⟩
    rw [List.append_assoc, ← hend]
    exact hline

end Scanner

/-! ## Statements -/

namespace Statement

/-- The fields of a statement. -/
def fields : Statement → List Field
  | empty => []
  | origin keyword operand => keyword :: operand.toList
  | finish l => l.toList
  | label name => [name]
  | operation l mnemonic operand => l.toList ++ mnemonic :: operand.toList

theorem isIn_of_mem_fields_ofWords {first : Field} {s : Scanner} {code : Text}
    (hfirst : first.IsIn code) (hs : s.Reads code) :
    ∀ f ∈ (ofWords first s).fields, f.IsIn code := by
  obtain ⟨hsecond, hnext⟩ := hs.nextWord
  have hrest := hnext.remainder
  unfold ofWords
  dsimp only
  split
  · simpa [fields, hfirst] using hsecond
  split
  · simp [fields]
  split
  · simpa [fields, hfirst] using hsecond
  split
  · simpa [fields] using hfirst
  · next mnemonic hm =>
    split
    · simpa [fields] using hfirst
    · have hmnemonic := hsecond mnemonic (by rw [hm]; rfl)
      simpa [fields, hfirst, hmnemonic] using hrest

/-- Every field of a statement is a piece of the code part of its line. -/
theorem isIn_codePart_of_mem_fields {line : Text} :
    ∀ f ∈ (parse line).fields, f.IsIn (codePart line) := by
  intro f hf
  unfold parse at hf
  split at hf
  · simp [fields] at hf
  · obtain ⟨hword, hnext⟩ := (Scanner.reads_ofLine (codePart line)).nextWord
    unfold ofCode at hf
    split at hf
    · simp [fields] at hf
    · next first s h =>
      rw [h] at hword hnext
      exact isIn_of_mem_fields_ofWords (hword first rfl) hnext f hf

/-- **Every field of a statement is a trimmed piece of its line, at its own place.** -/
theorem isIn_of_mem_fields {line : Text} : ∀ f ∈ (parse line).fields, f.IsIn line := by
  intro f hf
  rw [← List.takeWhile_append_dropWhile (p := (· != ';')) (l := line)]
  exact (isIn_codePart_of_mem_fields f hf).append _

end Statement

end Mc6800
