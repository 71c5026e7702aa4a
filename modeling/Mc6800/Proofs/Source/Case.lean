import Mc6800.Proofs.Text.Case
import Mc6800.Source.Statement

/-!
# Lines in upper case

A line in upper case is read as the same statement with its fields in upper case
(`Statement.parse_upper`). Every question that is put to a field on the way has the same answer in
either case: the value of a literal (`Literal.parse_upper`), the shape of an operand
(`Mode.ofOperand_upper`), the instruction of a mnemonic (`Statement.instructionOf_upper`) and the
words of directives. The places of fields do not move, since the two forms of a letter are of the
same size.
-/

set_option autoImplicit false

namespace Mc6800

/-! ## Literals -/

namespace Literal

theorem splitSign_upper (t : Text) :
    splitSign (Text.upper t) = ((splitSign t).1, Text.upper (splitSign t).2) := by
  cases t with
  | nil => rfl
  | cons c rest =>
    by_cases hc : c = '-'
    · subst hc
      rfl
    · have hc' : c.toUpper ≠ '-' := mt (Text.toUpper_eq_iff rfl c).1 hc
      simp [splitSign, hc, hc']

theorem splitRadix_upper (t : Text) :
    splitRadix (Text.upper t) = ((splitRadix t).1, Text.upper (splitRadix t).2) := by
  cases t with
  | nil => rfl
  | cons c rest =>
    by_cases hdollar : c = '$'
    · subst hdollar
      rfl
    by_cases hzero : c = '0'
    · subst hzero
      cases rest with
      | nil => rfl
      | cons d more =>
        -- The second character of a marker is a letter, and either form of it will do.
        by_cases hx : d = 'X' ∨ d = 'x'
        · rcases hx with rfl | rfl <;> rfl
        · have hx' := mt (Text.toUpper_eq_x_iff d).1 hx
          rw [not_or] at hx hx'
          have hzero : Text.upper ('0' :: d :: more) = '0' :: d.toUpper :: Text.upper more := rfl
          simp [hzero, splitRadix, hx, hx']
    · have hdollar' : c.toUpper ≠ '$' := mt (Text.toUpper_eq_iff rfl c).1 hdollar
      have hzero' : c.toUpper ≠ '0' := mt (Text.toUpper_eq_iff rfl c).1 hzero
      simp [splitRadix, hdollar, hdollar', hzero, hzero']

/-- A literal has the same value in either case, and is refused for the same reason. -/
theorem parse_upper (t : Text) : parse (Text.upper t) = parse t := by
  unfold parse
  rw [Text.trim_upper, Text.dropMarker_upper rfl, splitSign_upper]
  dsimp only
  rw [splitRadix_upper]
  dsimp only
  rw [Text.readDigits?_upper]

theorem value?_upper (t : Text) : value? (Text.upper t) = value? t := by
  rw [value?, parse_upper, value?]

theorem address?_upper (t : Text) : address? (Text.upper t) = address? t := by
  rw [address?, value?_upper, address?]

end Literal

/-! ## Shapes of operands -/

namespace Operand

theorem dropIndex?_upper (t : Text) :
    dropIndex? (Text.upper t) = (dropIndex? t).map Text.upper := by
  unfold dropIndex?
  rw [← Text.upper_reverse]
  match t.reverse with
  | [] | [_] => rfl
  | x :: c :: rest =>
    by_cases hc : c = ','
    · subst hc
      have hcomma : Text.upper (x :: ',' :: rest) = x.toUpper :: ',' :: Text.upper rest := rfl
      simp only [hcomma, Text.toUpper_eq_x_iff, ← Text.upper_reverse]
      split <;> rfl
    · have hc' : c.toUpper ≠ ',' := mt (Text.toUpper_eq_iff rfl c).1 hc
      simp [hc, hc']

theorem isAddress_upper (t : Text) : isAddress (Text.upper t) = isAddress t := by
  cases t with
  | nil => rfl
  | cons c rest =>
    by_cases hc : c = '$'
    · subst hc
      have hline : Text.upper ('$' :: rest) = '$' :: Text.upper rest := rfl
      simp only [hline, isAddress, Text.length_upper, Text.readDigits?_upper]
    · have hc' : c.toUpper ≠ '$' := mt (Text.toUpper_eq_iff rfl c).1 hc
      have hdigits := Text.readDigits?_upper .decimal (c :: rest)
      have hlength := Text.length_upper (c :: rest)
      simp only [Text.upper_cons] at hdigits hlength ⊢
      simp [isAddress, hc, hc', hdigits]

theorem isInteger_upper (t : Text) : isInteger (Text.upper t) = isInteger t := by
  rw [isInteger, Text.dropMarker_upper rfl, Text.readDigits?_upper, isInteger]

theorem isName_upper (t : Text) : isName (Text.upper t) = isName t := by
  cases t with
  | nil => rfl
  | cons c rest =>
    have hfirst : (c.toUpper.isAlpha || c.toUpper == '_') = (c.isAlpha || c == '_') :=
      Text.toUpper_congr (f := fun c => c.isAlpha || c == '_') (by decide) c
    have hchar : isNameChar ∘ Char.toUpper = isNameChar :=
      funext (Text.toUpper_congr (by decide))
    have hrest : (Text.upper rest).all isNameChar = rest.all isNameChar := by
      rw [Text.upper, List.all_map, hchar]
    rw [Text.upper_cons, isName, hfirst, hrest, isName]

end Operand

/-- The shape of an operand is the same in either case. -/
theorem Mode.ofOperand_upper (operand : Option Text) :
    Mode.ofOperand (operand.map Text.upper) = Mode.ofOperand operand := by
  have htext : (operand.map Text.upper).getD [] = Text.upper (operand.getD []) := by
    cases operand <;> rfl
  unfold Mode.ofOperand
  rw [htext, Text.trim_upper]
  cases Text.trim (operand.getD []) with
  | nil => rfl
  | cons c rest =>
    have hindex : (Operand.dropIndex? (Text.upper (c :: rest))).isSome =
        (Operand.dropIndex? (c :: rest)).isSome := by
      rw [Operand.dropIndex?_upper, Option.isSome_map]
    have haddress := Operand.isAddress_upper (c :: rest)
    have hinteger := Operand.isInteger_upper (c :: rest)
    have hname := Operand.isName_upper (c :: rest)
    simp only [Text.upper_cons] at hindex haddress hinteger hname ⊢
    simp only [Text.toUpper_eq_iff (d := Literal.immediateMarker) rfl, Literal.value?_upper,
      hindex, haddress, hinteger, hname]

/-! ## Fields and scanners -/

namespace Field

/-- The field in upper case, at the same place. -/
def upper (f : Field) : Field := ⟨Text.upper f.text, f.start⟩

@[simp] theorem text_upper (f : Field) : f.upper.text = Text.upper f.text := rfl

@[simp] theorem span_upper (f : Field) : f.upper.span = f.span := by
  rw [span, upper, Text.size_upper, span]

theorem is_upper (f : Field) (word : Text) : f.upper.is word = f.is word :=
  Text.sameWord_upper f.text word

theorem getD_upper (o : Option Field) (f : Field) :
    (o.map upper).getD f.upper = (o.getD f).upper := by
  cases o <;> rfl

end Field

namespace Scanner

/-- The scanner in front of the same text in upper case. -/
def upper (s : Scanner) : Scanner := ⟨s.position, Text.upper s.rest⟩

theorem skipWhile_upper {p : Char → Bool} (hp : ∀ c, p c.toUpper = p c) (s : Scanner) :
    s.upper.skipWhile p = (s.skipWhile p).upper := by
  simp only [skipWhile, upper, Text.takeWhile_upper hp, Text.dropWhile_upper hp, Text.size_upper]

theorem skipBlanks_upper (s : Scanner) : s.upper.skipBlanks = s.skipBlanks.upper :=
  skipWhile_upper Text.isBlank_toUpper s

theorem nextWord_upper (s : Scanner) :
    s.upper.nextWord = (s.nextWord.1.map Field.upper, s.nextWord.2.upper) := by
  have hinside : ∀ c : Char, (!Text.isBlank c.toUpper) = !Text.isBlank c := by
    intro c
    rw [Text.isBlank_toUpper]
  unfold nextWord
  rw [skipBlanks_upper]
  dsimp only
  cases hrest : s.skipBlanks.rest with
  | nil => simp [upper, hrest]
  | cons c rest =>
    have hupper : s.skipBlanks.upper.rest = c.toUpper :: Text.upper rest := by
      rw [upper, hrest, Text.upper_cons]
    rw [skipWhile_upper (p := fun c => !Text.isBlank c) hinside, hupper]
    simp only [← Text.upper_cons, Text.takeWhile_upper (p := fun c => !Text.isBlank c) hinside]
    rfl

theorem remainder_upper (s : Scanner) : s.upper.remainder.1 = s.remainder.1.map Field.upper := by
  unfold remainder
  rw [skipBlanks_upper]
  dsimp only
  cases hrest : s.skipBlanks.rest with
  | nil => simp [upper, hrest]
  | cons c rest =>
    have hupper : s.skipBlanks.upper.rest = c.toUpper :: Text.upper rest := by
      rw [upper, hrest, Text.upper_cons]
    rw [hupper]
    simp only [← Text.upper_cons, Text.trimEnd_upper]
    rfl

end Scanner

/-! ## Statements -/

namespace Statement

/-- The statement with its fields in upper case. -/
def upper : Statement → Statement
  | empty => empty
  | origin keyword operand => origin keyword.upper (operand.map Field.upper)
  | finish l => finish (l.map Field.upper)
  | label name => label name.upper
  | operation l mnemonic operand =>
    operation (l.map Field.upper) mnemonic.upper (operand.map Field.upper)

theorem isComment_upper (line : Text) : isComment (Text.upper line) = isComment line := by
  unfold isComment
  rw [Text.trimStart_upper]
  cases Text.trimStart line with
  | nil => rfl
  | cons c rest =>
    by_cases hstar : c = '*'
    · subst hstar
      rfl
    by_cases hsemicolon : c = ';'
    · subst hsemicolon
      rfl
    · have hstar' : c.toUpper ≠ '*' := mt (Text.toUpper_eq_iff rfl c).1 hstar
      have hsemicolon' : c.toUpper ≠ ';' := mt (Text.toUpper_eq_iff rfl c).1 hsemicolon
      simp [hstar, hstar', hsemicolon, hsemicolon']

theorem codePart_upper (line : Text) : codePart (Text.upper line) = Text.upper (codePart line) :=
  Text.takeWhile_upper (Text.toUpper_congr (f := (· != ';')) (by decide)) line

theorem isFinish_upper (f : Field) : isFinish f.upper = isFinish f := by
  rw [isFinish, Field.is_upper, Field.is_upper, isFinish]

theorem instructionOf_upper (mnemonic : Field) (operand : Option Field) :
    instructionOf mnemonic.upper (operand.map Field.upper) = instructionOf mnemonic operand := by
  have hword : Mnemonic.ofWord? (Text.upper mnemonic.text) = Mnemonic.ofWord? mnemonic.text := by
    rw [Mnemonic.ofWord?, Text.upper_upper, Mnemonic.ofWord?]
  have hshape : Mode.ofOperand ((operand.map Field.upper).map Field.text) =
      Mode.ofOperand (operand.map Field.text) := by
    rw [← Mode.ofOperand_upper (operand.map Field.text), Option.map_map, Option.map_map]
    rfl
  rw [instructionOf, hshape, Field.text_upper, Instruction.find?, hword, instructionOf,
    Instruction.find?]

theorem ofWords_upper (first : Field) (s : Scanner) :
    ofWords first.upper s.upper = (ofWords first s).upper := by
  unfold ofWords
  rw [Field.is_upper, isFinish_upper, Scanner.nextWord_upper]
  dsimp only
  rw [instructionOf_upper]
  split
  · rfl
  split
  · rfl
  split
  · rfl
  cases s.nextWord.1 with
  | none => rfl
  | some mnemonic =>
    simp only [Option.map_some, isFinish_upper, Scanner.remainder_upper]
    split <;> rfl

/-- **A line in upper case is the same statement in upper case.** -/
theorem parse_upper (line : Text) : parse (Text.upper line) = (parse line).upper := by
  unfold parse
  rw [isComment_upper, codePart_upper]
  split
  · rfl
  · have hline : Scanner.ofLine (Text.upper (codePart line)) =
        (Scanner.ofLine (codePart line)).upper := rfl
    unfold ofCode
    rw [hline, Scanner.nextWord_upper]
    cases (Scanner.ofLine (codePart line)).nextWord with
    | mk first s =>
      cases first with
      | none => rfl
      | some first => exact ofWords_upper first s

theorem target?_upper (s : Statement) : s.upper.target? = s.target? := by
  cases s with
  | empty | finish _ | label _ | operation _ _ _ => rfl
  | origin keyword operand =>
    cases operand with
    | none => rfl
    | some o => exact Literal.address?_upper o.text

theorem instruction?_upper (s : Statement) : s.upper.instruction? = s.instruction? := by
  cases s with
  | empty | finish _ | label _ | origin _ _ => rfl
  | operation _ mnemonic operand => exact instructionOf_upper mnemonic operand

end Statement

end Mc6800
