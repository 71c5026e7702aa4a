import Mc6800.Proofs.Checked.Basic
import Mc6800.Proofs.Source.Case
import Mc6800.Proofs.Source.Fields

/-!
# Reading a line without traps

A line is cut into its fields by bytes: the comment at the place of the first semicolon, the fields
by a cursor that holds the number of bytes behind it, markers by their sizes. All cuts are in range
and between characters, whatever the characters of the line are, so that the statement of the line
comes out (`Checked.statement_eq`). Only the size of the line has to be a count.

The cursor goes where a scanner goes: what the scanner has passed is as many bytes as the cursor
holds (`Scanner.Reads`).
-/

set_option autoImplicit false

namespace Mc6800

namespace Checked

/-! ## Comments -/

/-- The part of a line in front of its first semicolon. -/
def codePart (line : Text) : Checked Text :=
  match place? (· == ';') line with
  | none => .ok line
  | some n => bytesUpTo n line

theorem codePart_eq (line : Text) : codePart line = .ok (Statement.codePart line) := by
  have hfront : line.takeWhile (! · == ';') = Statement.codePart line := rfl
  unfold codePart
  split
  · next h => rw [← hfront, takeWhile_of_place?_eq_none h]
  · next n h => rw [place?_eq_some h, bytesUpTo_size_takeWhile, hfront]

/-! ## Fields -/

/-- A place in a line, in bytes. -/
structure Cursor where
  line : Text
  offset : Nat
  deriving DecidableEq, Repr

namespace Cursor

/-- The text behind the cursor. -/
def rest (c : Cursor) : Checked Text := bytesFrom c.offset c.line

/-- The cursor in front of the next character that is not blank. -/
def skipBlanks (max : Nat) (c : Cursor) : Checked Cursor := do
  let rest ← c.rest
  let skipped ← sub (Text.size rest) (Text.size (Text.trimStart rest))
  let offset ← add max c.offset skipped
  return { c with offset }

/-- The next word of the line. -/
def nextWord (max : Nat) (c : Cursor) : Checked (Option Field × Cursor) := do
  let c ← c.skipBlanks max
  let rest ← c.rest
  if rest.isEmpty then return (none, c)
  else do
    let length := (place? Text.isBlank rest).getD (Text.size rest)
    let word ← bytesUpTo length rest
    let offset ← add max c.offset length
    return (some ⟨word, c.offset⟩, { c with offset })

/-- All that is left of the line as one field, without the blanks around it. -/
def remainder (max : Nat) (c : Cursor) : Checked (Option Field × Cursor) := do
  let c ← c.skipBlanks max
  let rest ← c.rest
  if (Text.trimEnd rest).isEmpty then return (none, c)
  else return (some ⟨Text.trimEnd rest, c.offset⟩, { c with offset := Text.size c.line })

end Cursor

end Checked

namespace Scanner

open Checked (Cursor)

variable {max : Nat} {s : Scanner} {line : Text}

/-- The cursor at the place of a scanner in a line. -/
def cursor (s : Scanner) (line : Text) : Cursor := ⟨line, s.position⟩

theorem Reads.size_eq (h : s.Reads line) : s.position + Text.size s.rest = Text.size line := by
  obtain ⟨passed, rfl, hposition⟩ := h
  rw [hposition, Text.size_append]

theorem Reads.rest_cursor (h : s.Reads line) : (s.cursor line).rest = .ok s.rest := by
  obtain ⟨passed, rfl, hposition⟩ := h
  rw [Cursor.rest, cursor, hposition, Checked.bytesFrom_size_append]

theorem Reads.skipBlanks_cursor (h : s.Reads line) (hmax : Text.size line ≤ max) :
    (s.cursor line).skipBlanks max = .ok (s.skipBlanks.cursor line) := by
  have hsize := h.size_eq
  have hrest := congrArg Text.size
    (List.takeWhile_append_dropWhile (p := Text.isBlank) (l := s.rest))
  rw [Text.size_append] at hrest
  have hsub : Checked.sub (Text.size s.rest) (Text.size (Text.trimStart s.rest)) =
      .ok (Text.size (s.rest.takeWhile Text.isBlank)) := by
    rw [Text.trimStart, Checked.sub_of_le (by omega)]
    exact congrArg _ (by omega)
  have hadd : Checked.add max (s.cursor line).offset (Text.size (s.rest.takeWhile Text.isBlank)) =
      .ok s.skipBlanks.position :=
    Checked.add_of_le (by simp only [cursor]; omega)
  rw [Cursor.skipBlanks, h.rest_cursor, Checked.ok_bind, hsub, Checked.ok_bind, hadd]
  rfl

theorem nextWord_of_eq_nil (h : s.skipBlanks.rest = []) : s.nextWord = (none, s.skipBlanks) := by
  rw [Scanner.nextWord, h]

theorem nextWord_of_ne_nil (h : s.skipBlanks.rest ≠ []) :
    s.nextWord =
      (some ⟨s.skipBlanks.rest.takeWhile fun c => !Text.isBlank c, s.skipBlanks.position⟩,
        s.skipBlanks.skipWhile fun c => !Text.isBlank c) := by
  obtain ⟨c, rest, hrest⟩ := List.exists_cons_of_ne_nil h
  rw [Scanner.nextWord, hrest]

theorem remainder_of_eq_nil (h : s.skipBlanks.rest = []) :
    s.remainder = (none, s.skipBlanks) := by
  rw [Scanner.remainder, h]

theorem remainder_of_ne_nil (h : s.skipBlanks.rest ≠ []) :
    s.remainder =
      (some ⟨Text.trimEnd s.skipBlanks.rest, s.skipBlanks.position⟩,
        s.skipBlanks.skipWhile fun _ => true) := by
  obtain ⟨c, rest, hrest⟩ := List.exists_cons_of_ne_nil h
  rw [Scanner.remainder, hrest]

/-- A cursor hands out the words that a scanner hands out. -/
theorem Reads.nextWord_cursor (h : s.Reads line) (hmax : Text.size line ≤ max) :
    (s.cursor line).nextWord max = .ok (s.nextWord.1, s.nextWord.2.cursor line) := by
  have hskip : s.skipBlanks.Reads line := h.skipWhile _
  rw [Cursor.nextWord, h.skipBlanks_cursor hmax, Checked.ok_bind, hskip.rest_cursor,
    Checked.ok_bind, Checked.getD_place?]
  by_cases hnil : s.skipBlanks.rest = []
  · rw [nextWord_of_eq_nil hnil, hnil]
    rfl
  · have hsize := (hskip.skipWhile fun c => !Text.isBlank c).size_eq
    have hadd : Checked.add max (s.skipBlanks.cursor line).offset
        (Text.size (s.skipBlanks.rest.takeWhile fun c => !Text.isBlank c)) =
          .ok (s.skipBlanks.skipWhile fun c => !Text.isBlank c).position :=
      Checked.add_of_le (by simp only [cursor, Scanner.skipWhile] at hsize ⊢; omega)
    rw [nextWord_of_ne_nil hnil, if_neg (mt List.isEmpty_iff.1 hnil)]
    dsimp only
    rw [Checked.bytesUpTo_size_takeWhile, Checked.ok_bind, hadd]
    rfl

/-- A text that does not begin with a blank is trimmed to nothing only if it is nothing. -/
theorem trimEnd_eq_nil_iff {t : Text} (h : ∀ c ∈ t.head?, Text.isBlank c = false) :
    Text.trimEnd t = [] ↔ t = [] := by
  constructor
  · intro hend
    cases t with
    | nil => rfl
    | cons c rest => exact absurd hend (Text.isTrimmed_trimEnd rfl (h c rfl)).ne_nil
  · rintro rfl
    rfl

theorem Reads.remainder_cursor (h : s.Reads line) (hmax : Text.size line ≤ max) :
    (s.cursor line).remainder max = .ok (s.remainder.1, s.remainder.2.cursor line) := by
  have hskip : s.skipBlanks.Reads line := h.skipWhile _
  have hend := trimEnd_eq_nil_iff fun c hc => head?_skipBlanks (s := s) hc
  rw [Cursor.remainder, h.skipBlanks_cursor hmax, Checked.ok_bind, hskip.rest_cursor,
    Checked.ok_bind]
  by_cases hnil : s.skipBlanks.rest = []
  · rw [remainder_of_eq_nil hnil, if_pos (List.isEmpty_iff.2 (hend.2 hnil))]
    rfl
  -- The cursor goes to the end of the line, which the scanner reaches by passing all that is left.
  · have hlast : (s.skipBlanks.skipWhile fun _ => true).position = Text.size line := by
      have hrest : (s.skipBlanks.skipWhile fun _ => true).rest = [] :=
        List.dropWhile_eq_nil_iff.2 fun _ _ => rfl
      rw [← (hskip.skipWhile fun _ => true).size_eq, hrest, Text.size_nil, Nat.add_zero]
    rw [remainder_of_ne_nil hnil, if_neg (mt List.isEmpty_iff.1 (mt hend.1 hnil)), cursor, cursor,
      hlast]
    rfl

end Scanner

namespace Checked

/-! ## Literals -/

theorem stripPrefix_cons (c : Char) (t : Text) : stripPrefix [c] (c :: t) = .ok (some t) :=
  stripPrefix_append [c] t

theorem stripPrefix_cons_of_ne {c d : Char} (h : d ≠ c) (t : Text) :
    stripPrefix [c] (d :: t) = .ok none :=
  stripPrefix_of_not_isPrefix fun hprefix => h (List.cons_prefix_cons.1 hprefix).1.symm

/-- The text without a leading marker, if there is one. -/
def dropMarker (marker : Char) (t : Text) : Checked Text := do
  let rest ← stripPrefix [marker] t
  return rest.getD t

theorem dropMarker_eq (marker : Char) (t : Text) :
    dropMarker marker t = .ok (Text.dropMarker marker t) := by
  unfold dropMarker
  cases t with
  | nil => rfl
  | cons c rest =>
    by_cases h : c = marker
    · rw [h, stripPrefix_cons, ok_bind, Text.dropMarker, if_pos rfl]
      rfl
    · rw [stripPrefix_cons_of_ne h, ok_bind, Text.dropMarker, if_neg h]
      rfl

/-- The sign of a number and the text behind it; true stands for a minus sign. -/
def splitSign (t : Text) : Checked (Bool × Text) := do
  match ← stripPrefix ['-'] t with
  | some rest => return (true, rest)
  | none => return (false, t)

theorem splitSign_eq (t : Text) : splitSign t = .ok (Literal.splitSign t) := by
  unfold splitSign
  cases t with
  | nil => rfl
  | cons c rest =>
    by_cases h : c = '-'
    · rw [h, stripPrefix_cons]
      rfl
    · rw [stripPrefix_cons_of_ne h, ok_bind]
      simp [Literal.splitSign, h]

/-- The base that a text announces and the text behind its marker. -/
def splitRadix (t : Text) : Checked (Text.Radix × Text) := do
  match ← stripPrefix ['$'] t with
  | some digits => return (.hexadecimal, digits)
  | none =>
    match ← stripPrefix ['0', 'x'] t with
    | some digits => return (.hexadecimal, digits)
    | none =>
      match ← stripPrefix ['0', 'X'] t with
      | some digits => return (.hexadecimal, digits)
      | none => return (.decimal, t)

theorem splitRadix_eq (t : Text) : splitRadix t = .ok (Literal.splitRadix t) := by
  unfold splitRadix Literal.splitRadix
  split
  · next digits =>
    rw [show '$' :: digits = ['$'] ++ digits from rfl, stripPrefix_append]
    rfl
  · next digits =>
    have hdollar : ¬['$'] <+: '0' :: 'x' :: digits := by simp
    rw [stripPrefix_of_not_isPrefix hdollar, ok_bind,
      show '0' :: 'x' :: digits = ['0', 'x'] ++ digits from rfl, stripPrefix_append]
    rfl
  · next digits =>
    have hdollar : ¬['$'] <+: '0' :: 'X' :: digits := by simp
    have hlower : ¬['0', 'x'] <+: '0' :: 'X' :: digits := by simp
    rw [stripPrefix_of_not_isPrefix hdollar, ok_bind, stripPrefix_of_not_isPrefix hlower, ok_bind,
      show '0' :: 'X' :: digits = ['0', 'X'] ++ digits from rfl, stripPrefix_append]
    rfl
  · next hdollar hlower hupper =>
    rw [stripPrefix_of_not_isPrefix fun ⟨digits, h⟩ => hdollar digits h.symm, ok_bind,
      stripPrefix_of_not_isPrefix fun ⟨digits, h⟩ => hlower digits h.symm, ok_bind,
      stripPrefix_of_not_isPrefix fun ⟨digits, h⟩ => hupper digits h.symm]
    rfl

/-- The value of a literal, computed in 32 bits. -/
def literal (t : Text) : Checked (Except Literal.Fault Int) := do
  let unmarked ← dropMarker Literal.immediateMarker (Text.trim t)
  let (negative, unsigned) ← splitSign unmarked
  let (radix, digits) ← splitRadix unsigned
  return Literal.evaluate32 negative radix digits

theorem literal_eq (t : Text) : literal t = .ok (Literal.parse t) := by
  rw [literal, dropMarker_eq, ok_bind, splitSign_eq, ok_bind]
  dsimp only
  rw [splitRadix_eq, ok_bind, Literal.parse_eq_parse32]
  rfl

/-- The value of a literal, if the text is one. -/
def literalValue? (t : Text) : Checked (Option Int) := do
  match ← literal t with
  | .ok v => return some v
  | .error _ => return none

theorem literalValue?_eq (t : Text) : literalValue? t = .ok (Literal.value? t) := by
  rw [literalValue?, literal_eq, ok_bind, Literal.value?]
  cases Literal.parse t <;> rfl

/-! ## Shapes of operands -/

/-- The end of an operand with an index, in upper case. -/
def indexSuffix : Text := [',', 'X']

/-- The end that is dropped is a comma and the letter in either case. -/
theorem dropIndex?_eq_some_iff {t front : Text} :
    Operand.dropIndex? t = some front ↔ ∃ x, (x = 'X' ∨ x = 'x') ∧ t = front ++ [',', x] := by
  unfold Operand.dropIndex?
  constructor
  · intro h
    split at h
    · next x rest hreverse =>
      split at h
      · next hx =>
        rw [List.reverse_eq_iff] at hreverse
        refine ⟨x, hx, ?_⟩
        rw [hreverse, ← Option.some.inj h]
        simp
      · cases h
    · cases h
  · rintro ⟨x, hx, rfl⟩
    rw [List.reverse_append]
    exact (if_pos hx).trans (congrArg some (List.reverse_reverse front))

/-- Only the capital letter ends a text in upper case. -/
theorem isSome_dropIndex? {t : Text} (h : Text.upper t = t) :
    (Operand.dropIndex? t).isSome = indexSuffix.isSuffixOf t := by
  rw [Bool.eq_iff_iff, Option.isSome_iff_exists, List.isSuffixOf_iff_suffix]
  constructor
  · rintro ⟨front, hfront⟩
    obtain ⟨x, rfl | rfl, ht⟩ := dropIndex?_eq_some_iff.1 hfront
    · exact ⟨front, ht.symm⟩
    · rw [ht, Text.upper_append] at h
      have hend := List.append_inj_right h (Text.length_upper front)
      exact absurd hend (by decide)
  · rintro ⟨front, ht⟩
    exact ⟨front, dropIndex?_eq_some_iff.2 ⟨'X', .inl rfl, ht.symm⟩⟩

/-- The mode that the shape of an operand suggests. -/
def modeOf (operand : Option Text) : Checked Mode := do
  let t := Text.upper (Text.trim (operand.getD []))
  if t.isEmpty then return .inherent
  else
    match ← stripPrefix [Literal.immediateMarker] t with
    | some value =>
      match ← literalValue? value with
      | some v => return if Literal.FitsByte v then .immediate else .immediate16
      | none => return .immediate
    | none =>
      return if indexSuffix.isSuffixOf t then .indexed
        else if Operand.isAddress t then .extended
        else if Operand.isInteger t || Operand.isName t then .relative
        else .direct

theorem modeOf_eq (operand : Option Text) : modeOf operand = .ok (Mode.ofOperand operand) := by
  have htext : Text.trim ((operand.map Text.upper).getD []) =
      Text.upper (Text.trim (operand.getD [])) := by
    rw [← Text.trim_upper]
    cases operand <;> rfl
  have hupper : Text.upper (Text.upper (Text.trim (operand.getD []))) =
      Text.upper (Text.trim (operand.getD [])) := Text.upper_upper _
  rw [← Mode.ofOperand_upper, modeOf, Mode.ofOperand, htext]
  generalize Text.upper (Text.trim (operand.getD [])) = t at hupper
  cases t with
  | nil => rfl
  | cons c rest =>
    dsimp only
    rw [if_neg (by simp), isSome_dropIndex? hupper]
    by_cases h : c = Literal.immediateMarker
    · rw [h, stripPrefix_cons, ok_bind, if_pos rfl]
      dsimp only
      rw [literalValue?_eq, ok_bind]
      cases Literal.value? rest <;> rfl
    · rw [stripPrefix_cons_of_ne h, ok_bind, if_neg h]
      rfl

/-- The instruction that a mnemonic and an operand spell, if there is one. -/
def instructionOf (mnemonic : Field) (operand : Option Field) : Checked (Option Instruction) := do
  let mode ← modeOf (operand.map Field.text)
  return Instruction.find? mnemonic.text mode

theorem instructionOf_eq (mnemonic : Field) (operand : Option Field) :
    instructionOf mnemonic operand = .ok (Statement.instructionOf mnemonic operand) := by
  rw [instructionOf, modeOf_eq]
  rfl

/-! ## Statements -/

/-- The statement of a line whose first word is `first`, with the rest behind the cursor. -/
def ofWords (max : Nat) (first : Field) (c : Cursor) : Checked Statement := do
  if first.is "ORG" then
    let (operand, _) ← c.nextWord max
    return .origin first operand
  else if Statement.isFinish first then return .finish none
  else
    let (second, c) ← c.nextWord max
    let instruction ← instructionOf first second
    if instruction.isSome then return .operation none first second
    else
      match second with
      | none => return .label first
      | some mnemonic =>
        if Statement.isFinish mnemonic then return .finish (some first)
        else
          let (operand, _) ← c.remainder max
          return .operation (some first) mnemonic operand

/-- The statement of a line. -/
def statement (max : Nat) (line : Text) : Checked Statement := do
  if Statement.isComment line then return .empty
  else
    let code ← codePart line
    let (first, c) ← (⟨code, 0⟩ : Cursor).nextWord max
    match first with
    | none => return .empty
    | some first => ofWords max first c

variable {max : Nat}

theorem ofWords_eq {s : Scanner} {line : Text} (h : s.Reads line) (hmax : Text.size line ≤ max)
    (first : Field) : ofWords max first (s.cursor line) = .ok (Statement.ofWords first s) := by
  unfold ofWords Statement.ofWords
  have hremainder := h.nextWord.2.remainder_cursor hmax
  rw [h.nextWord_cursor hmax]
  generalize s.nextWord = next at hremainder ⊢
  obtain ⟨second, s'⟩ := next
  split
  · rfl
  split
  · rfl
  rw [ok_bind]
  dsimp only
  rw [instructionOf_eq, ok_bind]
  split
  · rfl
  cases second with
  | none => rfl
  | some mnemonic =>
    dsimp only
    rw [hremainder]
    split <;> rfl

theorem size_codePart_le (line : Text) :
    Text.size (Statement.codePart line) ≤ Text.size line := by
  have h := congrArg Text.size
    (List.takeWhile_append_dropWhile (p := (· != ';')) (l := line))
  rw [Text.size_append] at h
  exact h ▸ Nat.le_add_right _ _

/-- **A line of any characters is read without a trap.** -/
theorem statement_eq {line : Text} (hmax : Text.size line ≤ max) :
    statement max line = .ok (Statement.parse line) := by
  have hcode : Text.size (Statement.codePart line) ≤ max :=
    Nat.le_trans (size_codePart_le line) hmax
  have hstart := Scanner.reads_ofLine (Statement.codePart line)
  have hfirst := hstart.nextWord_cursor hcode
  unfold statement Statement.parse Statement.ofCode
  split
  · rfl
  · rw [codePart_eq, ok_bind]
    have hcursor : (⟨Statement.codePart line, 0⟩ : Cursor) =
        (Scanner.ofLine (Statement.codePart line)).cursor (Statement.codePart line) := rfl
    rw [hcursor, hfirst, ok_bind]
    have hnext := hstart.nextWord.2
    generalize (Scanner.ofLine (Statement.codePart line)).nextWord = next at hnext ⊢
    obtain ⟨first, s⟩ := next
    cases first with
    | none => rfl
    | some first => exact ofWords_eq hnext hcode first

/-- The address that a statement moves assembly to, if it has one that can be read. -/
def target? : Statement → Checked (Option Word)
  | .origin _ (some operand) => do
    let value ← literalValue? operand.text
    return value.bind fun v => if 0 ≤ v ∧ v < 65536 then some (UInt16.ofNat v.toNat) else none
  | _ => .ok none

theorem target?_eq (s : Statement) : target? s = .ok s.target? := by
  cases s with
  | empty | finish _ | label _ | operation _ _ _ => rfl
  | origin keyword operand =>
    cases operand with
    | none => rfl
    | some operand =>
      rw [target?, literalValue?_eq, ok_bind, Statement.target?, Literal.address?]
      cases Literal.value? operand.text <;> rfl

/-- The instruction of a statement, if it has one and that exists. -/
def instruction? : Statement → Checked (Option Instruction)
  | .operation _ mnemonic operand => instructionOf mnemonic operand
  | _ => .ok none

theorem instruction?_eq (s : Statement) : instruction? s = .ok s.instruction? := by
  cases s with
  | operation _ mnemonic operand => exact instructionOf_eq mnemonic operand
  | empty | origin _ _ | finish _ | label _ => rfl

end Checked

end Mc6800
