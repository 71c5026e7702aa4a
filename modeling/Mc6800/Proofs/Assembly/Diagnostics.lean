import Mc6800.Assembly.Diagnostic
import Mc6800.Proofs.Assembly.Counters

/-!
# Where diagnostics point

A fault's span is that of a field of its line, so the line has a piece there, which is what the
fault quotes. A line is a piece of the source, from the start of its segment on
(`Text.exists_eq_append_of_getElem?_lines`), so the source has the same piece at the span of the
diagnostic (`Diagnostic.selects_token`). All positions are counted in bytes: a span that cuts a
character in two has no piece at all.
-/

set_option autoImplicit false

namespace Mc6800

/-! ## Lines in their source -/

namespace Text

theorem exists_dropLineEnd_append (s : Text) : ∃ lineEnd, s = dropLineEnd s ++ lineEnd := by
  unfold dropLineEnd
  split
  · next body hs =>
    refine ⟨['\r', '\n'], ?_⟩
    rw [← List.reverse_reverse s, hs]
    simp
  · next body _ hs =>
    refine ⟨['\n'], ?_⟩
    rw [← List.reverse_reverse s, hs]
    simp
  · exact ⟨[], (List.append_nil s).symm⟩

/-- A line stands in its text where its segment starts. -/
theorem exists_eq_append_of_getElem?_lines {t line : Text} {i : Nat}
    (h : (lines t)[i]? = some line) :
    ∃ before after, t = before ++ (line ++ after) ∧ size before = lineStart t i := by
  rw [lines, List.getElem?_map] at h
  obtain ⟨s, hs, rfl⟩ := Option.map_eq_some_iff.1 h
  obtain ⟨lineEnd, hend⟩ := exists_dropLineEnd_append s
  obtain ⟨hi, hget⟩ := List.getElem?_eq_some_iff.1 hs
  refine ⟨((segments t).take i).flatten, lineEnd ++ ((segments t).drop (i + 1)).flatten, ?_, rfl⟩
  have hsplit : segments t = (segments t).take i ++ s :: (segments t).drop (i + 1) := by
    rw [← hget, List.getElem_cons_drop, List.take_append_drop]
  calc t = (segments t).flatten := (flatten_segments t).symm
    _ = ((segments t).take i).flatten ++ (s ++ ((segments t).drop (i + 1)).flatten) := by
      conv => lhs; rw [hsplit]
      rw [List.flatten_append, List.flatten_cons]
    _ = _ := by
      conv => lhs; rw [hend]
      rw [List.append_assoc]

end Text

/-! ## Fields in their line and source -/

namespace Field.IsIn

variable {f : Field} {line : Text}

/-- A field of a line is found in the source by the same span, moved to the start of the line. -/
theorem slice?_source (h : f.IsIn line) {source : Text} {i : Nat}
    (hline : (Text.lines source)[i]? = some line) :
    source.slice? (f.span.shift (Text.lineStart source i)) = some f.text := by
  obtain ⟨⟨before, after, rfl, hstart⟩, -⟩ := h
  obtain ⟨above, below, hsource, habove⟩ := Text.exists_eq_append_of_getElem?_lines hline
  have hplace : source = (above ++ before) ++ f.text ++ (after ++ below) := by
    rw [hsource]
    simp only [List.append_assoc]
  have hspan : f.span.shift (Text.lineStart source i) =
      ⟨Text.size (above ++ before), Text.size f.text⟩ := by
    rw [span, Span.shift, hstart, ← habove, Text.size_append, Nat.add_comm]
  rw [hspan, hplace]
  exact Text.slice?_append ..

end Field.IsIn

/-! ## Faults in their assembly -/

theorem Assembly.getElem?_of_mem_faultsFrom {n : Nat} {lines : List PlacedLine} {f : LocatedFault}
    (h : f ∈ faultsFrom n lines) :
    ∃ i address, f.line = n + i ∧ lines[i]? = some ⟨address, .fault f.fault f.span⟩ := by
  induction lines generalizing n with
  | nil => cases h
  | cons l rest ih =>
    have hrest : f ∈ faultsFrom (n + 1) rest →
        ∃ i address, f.line = n + i ∧ (l :: rest)[i]? = some ⟨address, .fault f.fault f.span⟩ := by
      intro hf
      obtain ⟨i, address, hi, hl⟩ := ih hf
      exact ⟨i + 1, address, by omega, by rwa [List.getElem?_cons_succ]⟩
    obtain ⟨address, outcome⟩ := l
    cases outcome with
    | empty | bytes _ => exact hrest h
    | fault fault span =>
      rcases List.mem_cons.1 h with rfl | hf
      · exact ⟨0, address, rfl, rfl⟩
      · exact hrest hf

/-- A fault blames a field of its own line. -/
theorem Assembler.exists_field_of_mem_faults {lines : List Text} {base : Word} {f : LocatedFault}
    (hf : f ∈ ((ofLines lines).withOrigin base).assemble.faults) :
    ∃ (line : Text) (field : Field), lines[f.line]? = some line ∧ field.IsIn line ∧
      f.span = field.span ∧ f.fault.token = f.fault.quote field.text := by
  obtain ⟨i, address, hi, hl⟩ := Assembly.getElem?_of_mem_faultsFrom hf
  rw [Nat.zero_add] at hi
  have hlength := (List.getElem?_eq_some_iff.1 hl).1
  rw [length_assemble] at hlength
  have hlength : i < lines.length := by simpa [withOrigin, ofLines] using hlength
  have hline : lines[i]? = some lines[i] := List.getElem?_eq_getElem hlength
  generalize lines[i] = line at hline
  have hs : ((ofLines lines).withOrigin base).statements[i]? = some (.parse line) := by
    simp only [withOrigin, ofLines, List.getElem?_map, hline, Option.map_some]
  rw [getElem?_assemble _ hs, Option.some.injEq] at hl
  obtain ⟨field, hfield, hspan, htoken⟩ := Statement.exists_field_of_outcome_eq_fault
    (fun g hg => (Statement.isIn_of_mem_fields g hg).trimmed) (congrArg PlacedLine.outcome hl)
  exact ⟨line, field, hi ▸ hline, Statement.isIn_of_mem_fields field hfield, hspan, htoken⟩

/-- **Diagnostics point at what they quote.** The line of a fault has a piece at the fault's span,
and the source has the same piece at the span of the diagnostic. It is not empty, and it is the
token of the fault, in upper case if there is no such instruction. -/
theorem Diagnostic.selects_token (source : Text) (base : Word) {f : LocatedFault}
    (hf : f ∈ ((Assembler.ofSource source).withOrigin base).assemble.faults) :
    ∃ line piece, (Text.lines source)[f.line]? = some line ∧ line.slice? f.span = some piece ∧
      piece ≠ [] ∧ f.fault.token = f.fault.quote piece ∧
      source.slice? (Diagnostic.ofFault source f).span = some piece := by
  obtain ⟨line, field, hline, hin, hspan, htoken⟩ := Assembler.exists_field_of_mem_faults hf
  refine ⟨line, field.text, hline, ?_, hin.trimmed.ne_nil, htoken, ?_⟩
  · rw [hspan]
    exact hin.slice?
  · show source.slice? (f.span.shift (Text.lineStart source f.line)) = _
    rw [hspan]
    exact hin.slice?_source hline

/-- A comment of two-byte letters and a wide blank stand in front of the operand, and its line ends
in a carriage return. -/
theorem Diagnostic.selects_token_behind_wide_blank :
    let source : Text := "; größe\r\nTOP\u3000LDAA #$ZZ 7\r\nRTS"
    let f : LocatedFault := ⟨1, .unresolvedOperand "#$ZZ 7", ⟨11, 6⟩⟩
    f ∈ ((Assembler.ofSource source).withOrigin 0xC000).assemble.faults ∧
      source.slice? (Diagnostic.ofFault source f).span = some ("#$ZZ 7" : Text) := by
  intro source f
  have hf : f ∈ ((Assembler.ofSource source).withOrigin 0xC000).assemble.faults := by
    decide +kernel
  obtain ⟨line, piece, -, -, -, htoken, hsource⟩ := Diagnostic.selects_token source 0xC000 hf
  have hpiece : ("#$ZZ 7" : Text) = piece := htoken
  subst hpiece
  exact ⟨hf, hsource⟩

end Mc6800
