import Mc6800.Proofs.Assembly.Outcome
import Mc6800.Proofs.Source.Scanning

/-!
# Labels in front of instructions

A label in front of a line with an instruction leaves the instruction as it is, in a line that is
longer by the label (`Statement.parse_behind_label`). The operand is read in another way, though:
without a label it is one word and with a label all that is left of the line, so the two agree on
operands of at most one word.
-/

set_option autoImplicit false

namespace Mc6800

/-! ## Words of a text -/

namespace Text

theorem words_append_of_allBlank {blanks : Text} (h : AllBlank blanks) (t : Text) :
    words (blanks ++ t) = words t := by
  induction blanks with
  | nil => rfl
  | cons b rest ih =>
    obtain ⟨hb, hrest⟩ := List.forall_mem_cons.1 h
    rw [← ih hrest, List.cons_append, words, List.splitOnP_cons_eq_if_modifyHead, if_pos hb]
    rfl

theorem words_append_of_endsWord {w t : Text} (hw : IsWord w) (ht : EndsWord t) :
    words (w ++ t) = w :: words t := by
  cases t with
  | nil =>
    rw [List.append_nil, words_of_isWord hw]
    rfl
  | cons b rest =>
    have hb : isBlank b = true := ht b rfl
    have hblank : AllBlank [b] := by simpa [AllBlank] using hb
    rw [words_append_blank hw hb, ← words_append_of_allBlank hblank rest]
    rfl

end Text

/-! ## Scanners in a longer line -/

/-- The field in a line with `n` more bytes in front. -/
def Field.shift (f : Field) (n : Nat) : Field := { f with start := f.start + n }

@[simp] theorem Field.text_shift (f : Field) (n : Nat) : (f.shift n).text = f.text := rfl

@[simp] theorem Field.span_shift (f : Field) (n : Nat) : (f.shift n).span = f.span.shift n := rfl

namespace Scanner

variable {s t : Scanner} {f : Field}

/-- The scanner in a line with `n` more bytes in front. -/
def shift (s : Scanner) (n : Nat) : Scanner := ⟨s.position + n, s.rest⟩

theorem skipWhile_shift (s : Scanner) (n : Nat) (p : Char → Bool) :
    (s.shift n).skipWhile p = (s.skipWhile p).shift n := by
  simp only [skipWhile, shift, Nat.add_right_comm]

theorem nextWord_shift (s : Scanner) (n : Nat) :
    (s.shift n).nextWord = (s.nextWord.1.map (·.shift n), s.nextWord.2.shift n) := by
  unfold nextWord skipBlanks
  rw [skipWhile_shift]
  dsimp only
  rw [skipWhile_shift]
  cases h : (s.skipWhile Text.isBlank).rest with
  | nil => simp [shift, h]
  | cons c rest => simp [shift, h, Field.shift]

theorem remainder_shift (s : Scanner) (n : Nat) :
    (s.shift n).remainder.1 = s.remainder.1.map (·.shift n) := by
  unfold remainder skipBlanks
  rw [skipWhile_shift]
  cases h : (s.skipWhile Text.isBlank).rest with
  | nil => simp [shift, h]
  | cons c rest => simp [shift, h, Field.shift]

/-- Blanks in front of a word only move it. -/
theorem nextWord_append_blanks {blanks : Text} (h : Text.AllBlank blanks) (position : Nat)
    (rest : Text) :
    nextWord ⟨position, blanks ++ rest⟩ = nextWord ⟨position + Text.size blanks, rest⟩ := by
  have hskip : skipBlanks ⟨position, blanks ++ rest⟩ =
      skipBlanks ⟨position + Text.size blanks, rest⟩ := by
    simp only [skipBlanks, skipWhile, List.takeWhile_append_of_pos h,
      List.dropWhile_append_of_pos h, Text.size_append, Nat.add_assoc]
  rw [nextWord, nextWord, hskip]

/-- What is left of a line is its text without the blanks around it. -/
theorem text_remainder (s : Scanner) :
    (s.remainder.1.map Field.text).getD [] = Text.trim s.rest := by
  unfold remainder
  dsimp only
  split
  · next h =>
    rw [Text.trim, show Text.trimStart s.rest = [] from h]
    rfl
  · rfl

theorem words_of_nextWord (h : s.nextWord = (some f, t)) :
    Text.words s.rest = f.text :: Text.words t.rest := by
  obtain ⟨blanks, hb, hw, hend, hrest, -, -⟩ := nextWord_eq_some_iff.1 h
  rw [hrest, Text.words_append_of_allBlank hb, Text.words_append_of_endsWord hw hend]

/-- A rest of at most one word is the next word. -/
theorem remainder_eq_nextWord (h : (Text.words s.rest).length ≤ 1) :
    s.remainder.1 = s.nextWord.1 := by
  cases hfirst : s.nextWord.1 with
  | none => exact remainder_eq_none_iff.2 (nextWord_eq_none_iff.1 hfirst)
  | some f =>
    have hnext : s.nextWord = (some f, s.nextWord.2) := Prod.ext hfirst rfl
    rw [words_of_nextWord hnext, List.length_cons] at h
    -- Another word behind it would be a second one of the rest.
    have hblank : Text.AllBlank s.nextWord.2.rest := by
      refine nextWord_eq_none_iff.1 (Option.eq_none_iff_forall_not_mem.2 fun g hg => ?_)
      rw [words_of_nextWord (Prod.ext hg rfl), List.length_cons] at h
      omega
    obtain ⟨blanks, hb, hw, -, hrest, hstart, -⟩ := nextWord_eq_some_iff.1 hnext
    exact remainder_eq_some_iff.2 ⟨blanks, _, hb, hblank, hw.isTrimmed, hrest, hstart⟩

end Scanner

/-! ## Lines -/

/-- A word that is a label in front of a mnemonic: it begins no comment, is no directive, and makes
no instruction with the mnemonic as its operand. -/
structure IsLabelFor (label mnemonic : Text) : Prop where
  isWord : Text.IsWord label
  head_ne_star : label.head? ≠ some '*'
  semicolon_not_mem : ';' ∉ label
  not_origin : Text.sameWord label "ORG" = false
  not_finish : Statement.isFinish ⟨label, 0⟩ = false
  not_instruction : Statement.instructionOf ⟨label, 0⟩ (some ⟨mnemonic, 0⟩) = none

instance (label mnemonic : Text) : Decidable (IsLabelFor label mnemonic) :=
  decidable_of_iff (Text.IsWord label ∧ label.head? ≠ some '*' ∧ ';' ∉ label ∧
      Text.sameWord label "ORG" = false ∧ Statement.isFinish ⟨label, 0⟩ = false ∧
      Statement.instructionOf ⟨label, 0⟩ (some ⟨mnemonic, 0⟩) = none)
    ⟨fun ⟨hword, hstar, hsemicolon, horigin, hfinish, hno⟩ =>
      ⟨hword, hstar, hsemicolon, horigin, hfinish, hno⟩,
    fun h => ⟨h.isWord, h.head_ne_star, h.semicolon_not_mem, h.not_origin, h.not_finish,
      h.not_instruction⟩⟩

namespace Statement

variable {label gap lead mnemonic rest : Text} {operand : Option Field}

theorem instructionOf_shift (m : Field) (o : Option Field) (n : Nat) :
    instructionOf (m.shift n) (o.map (·.shift n)) = instructionOf m o := by
  cases o <;> rfl

theorem shift_behind (mnemonic label gap lead : Text) :
    (⟨mnemonic, Text.size lead⟩ : Field).shift (Text.size (label ++ gap)) =
      ⟨mnemonic, Text.size (label ++ (gap ++ lead))⟩ := by
  simp only [Field.shift, Text.size_append, Field.mk.injEq, true_and]
  omega

theorem isComment_append_of_isLabelFor (h : IsLabelFor label mnemonic) (t : Text) :
    isComment (label ++ t) = false := by
  obtain ⟨c, more, rfl⟩ := List.exists_cons_of_ne_nil h.isWord.1
  have hc : Text.isBlank c = false := h.isWord.2 c List.mem_cons_self
  have hstar : c ≠ '*' := fun hc => h.head_ne_star (by rw [hc]; rfl)
  have hsemicolon : c ≠ ';' := fun hc => h.semicolon_not_mem (by simp [hc])
  simp [isComment, Text.trimStart, hc, hstar, hsemicolon]

/-- An instruction without a label is the first word of its line, with the next as its operand. -/
theorem exists_scanner_of_parse
    (h : parse (lead ++ (mnemonic ++ rest)) = operation none ⟨mnemonic, Text.size lead⟩ operand) :
    ∃ s : Scanner, (Scanner.ofLine (codePart (lead ++ (mnemonic ++ rest)))).nextWord =
        (some ⟨mnemonic, Text.size lead⟩, s) ∧
      s.rest = codePart rest ∧ s.nextWord.1 = operand ∧
      isFinish ⟨mnemonic, Text.size lead⟩ = false := by
  obtain ⟨-, first, s, hfirst, hwords⟩ := parse_eq_operation_iff.1 h
  obtain ⟨-, hfinish, ⟨-, rfl, hoperand, -⟩ | ⟨hnone, -⟩⟩ := ofWords_eq_operation_iff.1 hwords
  · refine ⟨s, hfirst, ?_, hoperand, hfinish⟩
    obtain ⟨blanks, -, -, -, hcode, hstart, -⟩ := Scanner.nextWord_eq_some_iff.1 hfirst
    simp only [Scanner.rest_ofLine, Scanner.position_ofLine, Nat.zero_add] at hcode hstart
    -- The blanks that the scanner skips are `lead`, which has their size.
    obtain ⟨rfl, -⟩ := codePart_exchange hcode hstart.symm (semicolon_not_mem_codePart [])
    have hsemicolon := semicolon_not_mem_codePart (blanks ++ (mnemonic ++ rest))
    rw [hcode] at hsemicolon
    simp only [List.mem_append, not_or] at hsemicolon
    rw [codePart_append hsemicolon.1, codePart_append hsemicolon.2.1] at hcode
    exact (List.append_cancel_left (List.append_cancel_left hcode)).symm
  · cases hnone

/-- Behind a label the mnemonic is the second word, and the scanner goes on behind it as it does
without the label. -/
theorem nextWord_behind_label (label : Text) {s : Scanner} {line : Text} {f : Field}
    (hgap : Text.AllBlank gap) (h : (Scanner.ofLine line).nextWord = (some f, s)) :
    Scanner.nextWord ⟨Text.size label, gap ++ line⟩ =
      (some (f.shift (Text.size (label ++ gap))), s.shift (Text.size (label ++ gap))) := by
  have hshift : (⟨Text.size label + Text.size gap, line⟩ : Scanner) =
      (Scanner.ofLine line).shift (Text.size (label ++ gap)) := by
    simp [Scanner.shift, Scanner.ofLine]
  rw [Scanner.nextWord_append_blanks hgap, hshift, Scanner.nextWord_shift, h]
  rfl

/-- A label in front of an instruction makes a line with the same mnemonic, whose operand is all
that is left behind it. -/
theorem parse_append_label {s : Scanner} (hlabel : IsLabelFor label mnemonic)
    (hgap : Text.AllBlank gap) (hne : gap ≠ []) {line : Text}
    (hfirst : (Scanner.ofLine (codePart line)).nextWord = (some ⟨mnemonic, Text.size lead⟩, s))
    (hfinish : isFinish ⟨mnemonic, Text.size lead⟩ = false) :
    parse (label ++ (gap ++ line)) =
      operation (some ⟨label, 0⟩) ⟨mnemonic, Text.size (label ++ (gap ++ lead))⟩
        (s.remainder.1.map (·.shift (Text.size (label ++ gap)))) := by
  have hgapsemicolon : ';' ∉ gap := fun h => absurd (hgap _ h) (by decide)
  have hcode : codePart (label ++ (gap ++ line)) = label ++ (gap ++ codePart line) := by
    rw [codePart_append hlabel.semicolon_not_mem, codePart_append hgapsemicolon]
  have hend : Text.EndsWord (gap ++ codePart line) := by
    obtain ⟨b, more, rfl⟩ := List.exists_cons_of_ne_nil hne
    intro c hc
    cases hc
    exact hgap b List.mem_cons_self
  have hword : (Scanner.ofLine (codePart (label ++ (gap ++ line)))).nextWord =
      (some ⟨label, 0⟩, ⟨Text.size label, gap ++ codePart line⟩) :=
    Scanner.nextWord_eq_some_iff.2
      ⟨[], by simp [Text.AllBlank], hlabel.isWord, hend, hcode, rfl, (Nat.zero_add _).symm⟩
  have hsecond := nextWord_behind_label label hgap hfirst
  rw [shift_behind] at hsecond
  refine parse_eq_operation_iff.2 ⟨isComment_append_of_isLabelFor hlabel _, _, _, hword,
    ofWords_eq_operation_iff.2 ⟨hlabel.not_origin, hlabel.not_finish,
      .inr ⟨rfl, congrArg Prod.fst hsecond, ?_, hfinish, ?_⟩⟩⟩
  · rw [show instructionOf ⟨label, 0⟩ (some ⟨mnemonic, Text.size (label ++ (gap ++ lead))⟩) = none
      from hlabel.not_instruction]
    rfl
  · rw [hsecond, Scanner.remainder_shift]

end Statement

/-! ## Outcomes -/

/-- The outcome in a line with `n` more bytes in front. -/
def LineOutcome.shift (o : LineOutcome) (n : Nat) : LineOutcome :=
  match o with
  | fault f span => fault f (span.shift n)
  | empty => empty
  | bytes code => bytes code

theorem LineOutcome.ofEncoding_shift (span : Span) (n : Nat)
    (encoding : Except Fault (List Byte)) :
    ofEncoding (span.shift n) encoding = (ofEncoding span encoding).shift n := by
  cases encoding <;> rfl

namespace Statement

variable {label gap lead mnemonic rest : Text} {operand : Option Field}

theorem outcome_operation_shift (l l' : Option Field) (m : Field) (o : Option Field) (n : Nat)
    (labels : LabelTable) (location : Word) :
    (operation l (m.shift n) (o.map (·.shift n))).outcome labels location =
      ((operation l' m o).outcome labels location).shift n := by
  cases hi : instructionOf m o with
  | none =>
    have hi' := (instructionOf_shift m o n).trans hi
    simp only [outcome, instruction?, hi, hi', LineOutcome.shift, Field.text_shift,
      Field.span_shift]
  | some i =>
    rw [outcome_operation hi, outcome_operation ((instructionOf_shift m o n).trans hi),
      ← LineOutcome.ofEncoding_shift]
    cases o <;> rfl

/-- **A label in front of an instruction** makes a line with that label and the same mnemonic, whose
operand is all that stands behind the mnemonic. If that is one word or none, it is the same
instruction, with the same code or the same fault wherever it is assembled. -/
theorem parse_behind_label (hlabel : IsLabelFor label mnemonic) (hgap : Text.AllBlank gap)
    (hne : gap ≠ [])
    (h : parse (lead ++ (mnemonic ++ rest)) = operation none ⟨mnemonic, Text.size lead⟩ operand) :
    ∃ operand', parse (label ++ (gap ++ (lead ++ (mnemonic ++ rest)))) =
        operation (some ⟨label, 0⟩) ⟨mnemonic, Text.size (label ++ (gap ++ lead))⟩ operand' ∧
      (operand'.map Field.text).getD [] = Text.trim (codePart rest) ∧
      ((Text.words (codePart rest)).length ≤ 1 →
        (parse (label ++ (gap ++ (lead ++ (mnemonic ++ rest))))).instruction? =
          (parse (lead ++ (mnemonic ++ rest))).instruction? ∧
        ∀ labels location,
          (parse (label ++ (gap ++ (lead ++ (mnemonic ++ rest))))).outcome labels location =
            ((parse (lead ++ (mnemonic ++ rest))).outcome labels location).shift
              (Text.size (label ++ gap))) := by
  obtain ⟨s, hfirst, hrest, hoperand, hfinish⟩ := exists_scanner_of_parse h
  have hparse := parse_append_label hlabel hgap hne hfirst hfinish
  refine ⟨_, hparse, ?_, fun hwords => ?_⟩
  · rw [← hrest, ← Scanner.text_remainder, Option.map_map]
    rfl
  · rw [← hrest] at hwords
    rw [Scanner.remainder_eq_nextWord hwords, hoperand, ← shift_behind] at hparse
    rw [hparse, h]
    exact ⟨instructionOf_shift .., fun labels location => outcome_operation_shift ..⟩

/-- A label in front of `LDAA 5` leaves its code as it is. -/
theorem parse_behind_label_here :
    (∃ operand, parse "HERE LDAA 5 ; five" =
        operation (some ⟨"HERE", 0⟩) ⟨"LDAA", 5⟩ operand) ∧
      (parse "HERE LDAA 5 ; five").outcome .empty loadAddress = .bytes [0xB6, 0x00, 0x05] := by
  have hlabel : IsLabelFor "HERE" "LDAA" := by decide +kernel
  have hgap : Text.AllBlank [' '] := by decide
  have hparse : parse (([] : Text) ++ (("LDAA" : Text) ++ (" 5 ; five" : Text))) =
      operation none ⟨"LDAA", 0⟩ (some ⟨"5", 5⟩) := by decide +kernel
  obtain ⟨operand, hlabelled, -, hsame⟩ := parse_behind_label hlabel hgap (by decide) hparse
  obtain ⟨-, houtcome⟩ := hsame (by decide +kernel)
  refine ⟨⟨operand, hlabelled⟩, (houtcome .empty loadAddress).trans ?_⟩
  decide +kernel

/-- Of two words behind the mnemonic the first is the operand without a label, and both together are
it behind one. -/
theorem parse_behind_label_two_words :
    IsLabelFor "HERE" "LDAA" ∧
      parse "LDAA 5 extra" = operation none ⟨"LDAA", 0⟩ (some ⟨"5", 5⟩) ∧
      (parse "LDAA 5 extra").outcome .empty loadAddress = .bytes [0xB6, 0x00, 0x05] ∧
      (parse "HERE LDAA 5 extra").instruction? ≠ (parse "LDAA 5 extra").instruction? ∧
      (parse "HERE LDAA 5 extra").outcome .empty loadAddress =
        .fault (.unresolvedOperand "5 extra") ⟨10, 7⟩ := by
  decide +kernel

end Statement

end Mc6800
