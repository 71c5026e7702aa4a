import Mc6800.Program
import Mc6800.Proofs.Assembly.Counters

/-!
# Machine code text is read back

The machine code text of an assembly, laid out from the same base, is read back line by line
(`parse_machineCode`): empty lines as blank ones, code as its bytes and a fault as text that is no
code. Only an empty last line is lost. A fault cannot break the text into other lines or pass for
bytes, since the token that it ends with is a trimmed piece of one source line.
-/

set_option autoImplicit false

namespace Mc6800

/-! ## One line -/

namespace CodeLine

theorem readBytes?_map_ofByte (bs : List Byte) : readBytes? (bs.map Text.ofByte) = some bs := by
  induction bs with
  | nil => rfl
  | cons b rest ih => simp only [List.map_cons, readBytes?, Text.readByte?_ofByte, ih]

/-- A trimmed text holds the bytes that its words stand for, or is no code. -/
theorem parse_of_isTrimmed {t : Text} (h : Text.IsTrimmed t) :
    parse t = match readBytes? (Text.words t) with
      | some (opcode :: operands) => bytes opcode operands
      | _ => undecodable t := by
  unfold parse
  rw [Text.trim_of_isTrimmed h]
  cases t with
  | nil => exact absurd rfl h.ne_nil
  | cons c rest => rfl

end CodeLine

theorem Fault.lineFeed_not_mem_message {f : Fault} (h : '\n' ∉ f.token) : '\n' ∉ f.message := by
  have hnat : ∀ n, '\n' ∉ Text.ofNat n := fun n hn =>
    absurd (Nat.isDigit_of_mem_toDigits (by decide) (by decide) hn) (by decide)
  have hint : ∀ v, '\n' ∉ Text.ofInt v := by
    intro v
    unfold Text.ofInt
    split
    · simpa using hnat v.natAbs
    · exact hnat v.natAbs
  cases f with
  | badOrigin t | invalidInstruction t | unresolvedOperand t =>
    exact List.not_mem_append (by decide) h
  | valueOutOfRange t v | branchOutOfRange t v =>
    exact List.not_mem_append
      (List.not_mem_append (List.not_mem_append (by decide) (hint v)) (by decide)) h

namespace LineOutcome

/-- What the machine code line of an outcome holds. -/
def toCodeLine : LineOutcome → CodeLine
  | empty | bytes [] => .blank
  | bytes (opcode :: operands) => .bytes opcode operands
  | fault f span => .undecodable (fault f span).render

/-- Code has a byte, and a fault's token is trimmed and within one line. -/
def IsReadable : LineOutcome → Prop
  | empty => True
  | bytes code => code ≠ []
  | fault f _ => Text.IsTrimmed f.token ∧ '\n' ∉ f.token

theorem isWord_faultMarker : Text.IsWord faultMarker := Text.isWord_of_all (by decide) (by decide)

theorem code_toCodeLine (o : LineOutcome) : o.toCodeLine.code = o.code := by
  cases o with
  | empty | fault _ _ => rfl
  | bytes code => cases code <;> rfl

theorem isTrimmed_render_fault {f : Fault} (span : Span) (h : Text.IsTrimmed f.token) :
    Text.IsTrimmed (fault f span).render := by
  obtain ⟨before, hmessage⟩ := f.token_isSuffix_message
  have hsplit : (fault f span).render = faultMarker ++ (" " ++ before) ++ f.token := by
    simp only [render, ← hmessage, List.append_assoc]
  rw [hsplit]
  exact isWord_faultMarker.isTrimmed.append _ h

theorem render_eq_nil_iff {o : LineOutcome} (h : o.IsReadable) : o.render = [] ↔ o = empty := by
  cases o with
  | empty => simp [render]
  | bytes code => simpa [render] using (Text.isTrimmed_ofBytes h).ne_nil
  | fault f span => simpa using (isTrimmed_render_fault span h.1).ne_nil

theorem isLine_render {o : LineOutcome} (h : o.IsReadable) : Text.IsLine o.render := by
  cases o with
  | empty => exact Text.isLine_nil
  | bytes code => exact Text.isLine_ofBytes h
  | fault f span =>
    refine (isTrimmed_render_fault span h.1).isLine ?_
    simp only [render, List.mem_append, not_or]
    exact ⟨⟨by decide, by decide⟩, Fault.lineFeed_not_mem_message h.2⟩

theorem parse_render {o : LineOutcome} (h : o.IsReadable) :
    CodeLine.parse o.render = o.toCodeLine := by
  cases o with
  | empty => rfl
  | bytes code =>
    cases code with
    | nil => exact absurd rfl h
    | cons opcode operands =>
      rw [render, CodeLine.parse_of_isTrimmed (Text.isTrimmed_ofBytes h), Text.words_ofBytes h,
        CodeLine.readBytes?_map_ofByte]
      rfl
  | fault f span =>
    have hwords : Text.words (fault f span).render = faultMarker :: Text.words f.message := by
      rw [render, List.append_assoc]
      exact Text.words_append_blank isWord_faultMarker (b := ' ') (by decide) _
    have hmarker : Text.readByte? faultMarker = none := rfl
    rw [CodeLine.parse_of_isTrimmed (isTrimmed_render_fault span h.1), hwords]
    simp only [CodeLine.readBytes?, hmarker]
    rfl

end LineOutcome

theorem Statement.isReadable_outcome {line : Text} (h : '\n' ∉ line) (labels : LabelTable)
    (location : Word) : ((parse line).outcome labels location).IsReadable := by
  cases ho : (parse line).outcome labels location with
  | empty => trivial
  | bytes code =>
    obtain ⟨i, operand, -, hcode⟩ := exists_encode_of_outcome_eq_bytes _ ho
    have hlength : code.length = i.mode.length := Instruction.length_encode hcode
    have hpos := i.mode.length_pos
    exact List.ne_nil_of_length_pos (by omega)
  | fault f span =>
    obtain ⟨g, hg, -, htoken⟩ :=
      exists_field_of_outcome_eq_fault (fun g hg => (isIn_of_mem_fields g hg).trimmed) ho
    have hin := isIn_of_mem_fields g hg
    have hfeed : '\n' ∉ g.text := fun hn => h (hin.subset hn)
    rw [LineOutcome.IsReadable, htoken]
    rcases f.quote_eq_or g.text with hquote | hquote
    · rw [hquote]
      exact ⟨hin.trimmed, hfeed⟩
    · rw [hquote]
      exact ⟨hin.trimmed.upper, mt (Text.mem_upper_iff rfl).1 hfeed⟩

/-! ## All lines -/

namespace LineOutcome

/-- Joined lines are read back, but for an empty last one. -/
theorem parse_joinLines {os : List LineOutcome} (h : ∀ o ∈ os, o.IsReadable) :
    (Text.lines (Text.joinLines (os.map render))).map CodeLine.parse =
      (if os.getLast? = some empty then os.dropLast else os).map toCodeLine := by
  have hlines : ∀ l ∈ os.map render, Text.IsLine l := by
    simpa using fun o ho => isLine_render (h o ho)
  have hlast : (os.map render).getLast? = some [] ↔ os.getLast? = some empty := by
    rw [List.getLast?_map]
    cases hl : os.getLast? with
    | none => simp
    | some o => simpa using render_eq_nil_iff (h o (List.mem_of_getLast? hl))
  have hparse : ∀ os' : List LineOutcome, os' ⊆ os →
      (os'.map render).map CodeLine.parse = os'.map toCodeLine := by
    intro os' hsub
    rw [List.map_map]
    exact List.map_congr_left fun o ho => parse_render (h o (hsub ho))
  rw [Text.lines_joinLines hlines]
  simp only [hlast]
  split
  · rw [← List.map_dropLast]
    exact hparse _ (List.dropLast_subset _)
  · exact hparse _ (List.Subset.refl _)

theorem parse_joinLines_concat {os : List LineOutcome} (h : ∀ o ∈ os, o.IsReadable)
    (hne : os ≠ []) :
    (Text.lines (Text.joinLines (os.map render) ++ ['\n'])).map CodeLine.parse =
      os.map toCodeLine := by
  have hlines : ∀ l ∈ os.map render, Text.IsLine l := by
    simpa using fun o ho => isLine_render (h o ho)
  rw [Text.lines_joinLines_concat hlines (by simpa using hne), List.map_map]
  exact List.map_congr_left fun o ho => parse_render (h o ho)

end LineOutcome

/-! ## Addresses -/

theorem Program.getElem?_place (base : Word) (ls : List CodeLine) (i : Nat) :
    (place base ls)[i]? =
      ls[i]?.map fun l =>
        ⟨base + UInt16.ofNat ((ls.take i).flatMap CodeLine.code).length, l⟩ := by
  induction ls generalizing base i with
  | nil => rfl
  | cons l rest ih =>
    cases i with
    | zero => simp [place]
    | succ i =>
      simp only [place, List.getElem?_cons_succ, ih, List.take_succ_cons, List.flatMap_cons,
        List.length_append, UInt16.ofNat_add, UInt16.add_assoc]

theorem Program.flatMap_place (base : Word) (ls : List CodeLine) :
    (place base ls).flatMap (fun e => e.line.code) = ls.flatMap CodeLine.code := by
  induction ls generalizing base with
  | nil => rfl
  | cons l rest ih => simp only [place, List.flatMap_cons, ih]

/-- Where no line moves assembly elsewhere, a line lies behind the code of the lines in front of
it. -/
theorem Emission.address_run {statements : List Statement} (h : ∀ s ∈ statements, s.target? = none)
    (labels : LabelTable) (e : Emission) {i : Nat} {l : PlacedLine}
    (hl : (run labels e statements).1[i]? = some l) :
    l.address = e.location + UInt16.ofNat
      (((run labels e statements).1.take i).flatMap fun l => l.outcome.code).length := by
  induction statements generalizing e i with
  | nil => cases hl
  | cons s rest ih =>
    cases i with
    | zero =>
      simp only [run, List.getElem?_cons_zero, Option.some.injEq] at hl
      subst hl
      simp
    | succ i =>
      have hs : s.target? = none := h s List.mem_cons_self
      simp only [run, List.getElem?_cons_succ] at hl
      rw [ih (fun t ht => h t (List.mem_cons_of_mem _ ht)) _ hl]
      simp only [run, next, hs, List.take_succ_cons, List.flatMap_cons, List.length_append,
        UInt16.ofNat_add, UInt16.add_assoc]

/-! ## Assemblies -/

namespace Assembly

/-- Whether the last line has no code and no fault. Its empty line of machine code text has no line
feed behind it. -/
def EndsEmpty (a : Assembly) : Prop := a.lines.getLast?.map PlacedLine.outcome = some .empty

instance (a : Assembly) : Decidable a.EndsEmpty := inferInstanceAs (Decidable (_ = _))

/-- The lines that are found again in the machine code text. -/
def savedLines (a : Assembly) : List PlacedLine :=
  if a.EndsEmpty then a.lines.dropLast else a.lines

theorem exists_lines_eq_append (a : Assembly) :
    ∃ lost, a.lines = a.savedLines ++ lost ∧ ∀ l ∈ lost, l.outcome = .empty := by
  unfold savedLines
  split
  · next h =>
    obtain ⟨l, hl, hempty⟩ := Option.map_eq_some_iff.1 h
    obtain ⟨front, hfront⟩ := List.getLast?_eq_some_iff.1 hl
    refine ⟨[l], ?_, by simpa using hempty⟩
    rw [hfront, List.dropLast_concat]
  · exact ⟨[], by simp, by simp⟩

theorem length_savedLines (a : Assembly) :
    a.savedLines.length = if a.EndsEmpty then a.lines.length - 1 else a.lines.length := by
  unfold savedLines
  split <;> simp

theorem parse_machineCode_eq {a : Assembly} (h : ∀ l ∈ a.lines, l.outcome.IsReadable)
    (base : Word) :
    Program.parse a.machineCode base =
      ⟨Program.place base (a.savedLines.map fun l => l.outcome.toCodeLine)⟩ := by
  have hread : ∀ o ∈ a.lines.map PlacedLine.outcome, o.IsReadable := by simpa using h
  have hrender : a.lines.map (fun l => l.outcome.render) =
      (a.lines.map PlacedLine.outcome).map LineOutcome.render := by
    rw [List.map_map]
    rfl
  rw [Program.parse, machineCode, hrender, LineOutcome.parse_joinLines hread, List.getLast?_map]
  by_cases hempty : a.lines.getLast?.map PlacedLine.outcome = some .empty
  · have hends : a.EndsEmpty := hempty
    rw [savedLines, if_pos hempty, if_pos hends, ← List.map_dropLast, List.map_map]
    rfl
  · have hends : ¬a.EndsEmpty := hempty
    rw [savedLines, if_neg hempty, if_neg hends, List.map_map]
    rfl

theorem getElem?_parse_machineCode {a : Assembly} (h : ∀ l ∈ a.lines, l.outcome.IsReadable)
    (base : Word) {i : Nat} (hi : i < a.savedLines.length) :
    ∃ l, a.lines[i]? = some l ∧ (Program.parse a.machineCode base).entries[i]? =
      some ⟨base + UInt16.ofNat ((a.lines.take i).flatMap fun l => l.outcome.code).length,
        l.outcome.toCodeLine⟩ := by
  obtain ⟨lost, hlines, -⟩ := a.exists_lines_eq_append
  have hline : a.lines[i]? = some a.savedLines[i] := by
    rw [hlines, List.getElem?_append_left hi, List.getElem?_eq_getElem hi]
  have htake : a.lines.take i = a.savedLines.take i := by
    rw [hlines, List.take_append_of_le_length (Nat.le_of_lt hi)]
  refine ⟨_, hline, ?_⟩
  rw [parse_machineCode_eq h, Program.getElem?_place, List.getElem?_map,
    List.getElem?_eq_getElem hi, htake, ← List.map_take, List.flatMap_map]
  simp only [Option.map_some, LineOutcome.code_toCodeLine]

/-- The bytes of the text are those of the assembly, since a line that is lost has none. -/
theorem flatMap_parse_machineCode {a : Assembly} (h : ∀ l ∈ a.lines, l.outcome.IsReadable)
    (base : Word) :
    (Program.parse a.machineCode base).entries.flatMap (fun e => e.line.code) = a.image := by
  obtain ⟨lost, hlines, hlost⟩ := a.exists_lines_eq_append
  have hnil : lost.flatMap (fun l => l.outcome.code) = [] := by
    rw [List.flatMap_eq_nil_iff]
    intro l hl
    rw [hlost l hl]
    rfl
  rw [parse_machineCode_eq h, Program.flatMap_place, List.flatMap_map, image, hlines,
    List.flatMap_append, hnil, List.append_nil]
  simp only [LineOutcome.code_toCodeLine]

end Assembly

namespace Assembler

theorem isReadable_of_mem_lines (source : Text) (base : Word) :
    ∀ l ∈ ((ofSource source).withOrigin base).assemble.lines, l.outcome.IsReadable := by
  intro l hl
  obtain ⟨statement, hs, location, ho⟩ := exists_statement_of_mem_lines _ hl
  obtain ⟨line, hline, rfl⟩ := List.mem_map.1 hs
  rw [ho]
  exact Statement.isReadable_outcome (Text.not_mem_of_mem_lines hline) ..

/-- Without a readable origin every line lies behind the code of the lines in front of it. -/
theorem address_of_no_target {a : Assembler} (h : ∀ s ∈ a.statements, s.target? = none) {i : Nat}
    {l : PlacedLine} (hl : a.assemble.lines[i]? = some l) :
    l.address = a.base +
      UInt16.ofNat ((a.assemble.lines.take i).flatMap fun l => l.outcome.code).length :=
  Emission.address_run h _ _ hl

end Assembler

/-- **Machine code text is read back.** From the same base it holds one line for each line of
source, an empty last one excepted: blank where the outcome is empty, the bytes of code, and the
rendered message of a fault. All bytes together are the image. Without a readable origin the
addresses are those of the assembly. -/
theorem parse_machineCode (source : Text) (base : Word) :
    let assembler := (Assembler.ofSource source).withOrigin base
    let a := assembler.assemble
    let p := Program.parse a.machineCode base
    p.size = (if a.EndsEmpty then a.lines.length - 1 else a.lines.length) ∧
    (∀ i < p.size, ∃ l e, a.lines[i]? = some l ∧ p.entries[i]? = some e ∧
      (e.line = .blank ↔ l.outcome = .empty) ∧
      (∀ code, l.outcome = .bytes code →
        ∃ opcode operands, code = opcode :: operands ∧ e.line = .bytes opcode operands) ∧
      (∀ f span, l.outcome = .fault f span → e.line = .undecodable l.outcome.render) ∧
      ((∀ s ∈ assembler.statements, s.target? = none) → e.address = l.address)) ∧
    p.entries.flatMap (fun e => e.line.code) = a.image := by
  intro assembler a p
  have hread : ∀ l ∈ a.lines, l.outcome.IsReadable := Assembler.isReadable_of_mem_lines source base
  have hp : p = _ := a.parse_machineCode_eq hread base
  have hsize : p.size = a.savedLines.length := by
    rw [hp, Program.size, Program.length_place, List.length_map]
  refine ⟨by rw [hsize, a.length_savedLines], fun i hi => ?_,
    a.flatMap_parse_machineCode hread base⟩
  obtain ⟨l, hl, he⟩ := a.getElem?_parse_machineCode hread base (hsize ▸ hi)
  have hl' := hread l (List.mem_of_getElem? hl)
  refine ⟨l, _, hl, he, ?_, fun code hcode => ?_, fun f span hfault => ?_, fun htarget => ?_⟩
  · cases ho : l.outcome with
    | empty => simp [LineOutcome.toCodeLine]
    | fault _ _ => simp [LineOutcome.toCodeLine]
    | bytes code =>
      rw [ho] at hl'
      obtain ⟨opcode, operands, rfl⟩ := List.exists_cons_of_ne_nil hl'
      simp [LineOutcome.toCodeLine]
  · rw [hcode] at hl' ⊢
    obtain ⟨opcode, operands, rfl⟩ := List.exists_cons_of_ne_nil hl'
    exact ⟨opcode, operands, rfl, rfl⟩
  · rw [hfault]
    rfl
  · exact (Assembler.address_of_no_target htarget hl).symm

/-- A message with blanks in it is read back, and the line behind it keeps its address. -/
theorem parse_machineCode_with_fault :
    let assembler := (Assembler.ofSource "TOP LDAA #$ZZ 7F\nNOP\n\n").withOrigin 0x1000
    let a := assembler.assemble
    let p := Program.parse a.machineCode 0x1000
    1 < p.size ∧ ∃ l e, a.lines[1]? = some l ∧ p.entries[1]? = some e ∧ e.address = l.address := by
  intro assembler a p
  have hsize : 1 < p.size := by decide +kernel
  obtain ⟨l, e, hl, he, -, -, -, haddress⟩ := (parse_machineCode _ 0x1000).2.1 1 hsize
  exact ⟨hsize, l, e, hl, he, haddress (by decide +kernel)⟩

end Mc6800
