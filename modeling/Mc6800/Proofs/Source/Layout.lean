import Mathlib.Logic.Relation
import Mc6800.Assembly.Passes
import Mc6800.Proofs.Source.IdleLines

/-!
# The layout of a line

A line may be laid out in another way (`Relayout`): with other blanks around its words, as long as
there are some between them, and with a comment behind it. It keeps its statement but for the places
of the fields (`Statement.unplaced_parse_of_relayout`), because a scanner that skips blanks reads on
at the same text whatever blanks they were (`Scanner.ReadsAlike`). A source whose lines end in a
carriage return and a line feed has the same lines, so it is assembled with the places too.
-/

set_option autoImplicit false

namespace Mc6800

/-! ## Line ends -/

namespace Text

/-- The text with a carriage return put in front of every line feed. -/
def withReturns : Text → Text
  | [] => []
  | c :: rest => if c = '\n' then '\r' :: '\n' :: withReturns rest else c :: withReturns rest

theorem withReturns_of_not_mem {t : Text} (h : '\n' ∉ t) : withReturns t = t := by
  induction t with
  | nil => rfl
  | cons c rest ih =>
    obtain ⟨hc, hrest⟩ : '\n' ≠ c ∧ '\n' ∉ rest := by simpa using h
    rw [withReturns, if_neg (Ne.symm hc), ih hrest]

theorem withReturns_append (s t : Text) :
    withReturns (s ++ t) = withReturns s ++ withReturns t := by
  induction s with
  | nil => rfl
  | cons c rest ih =>
    rw [List.cons_append, withReturns, withReturns, ih]
    split <;> rfl

theorem segments_withReturns (t : Text) :
    segments (withReturns t) = (segments t).map withReturns := by
  induction t with
  | nil => rfl
  | cons c rest ih =>
    by_cases hc : c = '\n'
    · subst hc
      simp [withReturns, segments, ih]
    · rw [withReturns, if_neg hc, segments, if_neg hc, ih, segments, if_neg hc]
      cases segments rest with
      | nil => simp [withReturns, hc]
      | cons s more => simp [withReturns, hc]

/-- A segment is a line and its line feed, or a last line that has none. -/
theorem eq_concat_or_of_mem_segments {t s : Text} (h : s ∈ segments t) :
    (∃ l, s = l ++ ['\n'] ∧ '\n' ∉ l) ∨ '\n' ∉ s := by
  have hlast := not_mem_dropLast_of_mem_segments h
  rcases List.eq_nil_or_concat s with rfl | ⟨l, c, rfl⟩
  · exact .inr List.not_mem_nil
  · rw [List.concat_eq_append] at hlast ⊢
    rw [List.dropLast_concat] at hlast
    by_cases hc : c = '\n'
    · exact .inl ⟨l, by rw [hc], hlast⟩
    · exact .inr (by simp [hlast, Ne.symm hc])

/-- Carriage returns in front of the line feeds are no part of the lines. -/
theorem lines_withReturns {t : Text} (h : '\r' ∉ t) : lines (withReturns t) = lines t := by
  rw [lines, segments_withReturns, List.map_map, lines]
  refine List.map_congr_left fun s hs => ?_
  rcases eq_concat_or_of_mem_segments hs with ⟨l, rfl, hl⟩ | hs'
  · have hreturn : l.getLast? ≠ some '\r' := by
      intro hlast
      have hmem : '\r' ∈ (segments t).flatten :=
        List.mem_flatten.2 ⟨_, hs, List.mem_append_left _ (List.mem_of_getLast? hlast)⟩
      rw [flatten_segments] at hmem
      exact h hmem
    have hline : withReturns (l ++ ['\n']) = (l ++ ['\r']) ++ ['\n'] := by
      rw [withReturns_append, withReturns_of_not_mem hl, List.append_assoc]
      rfl
    rw [Function.comp_apply, dropLineEnd_concat hreturn, hline]
    simp [dropLineEnd]
  · rw [Function.comp_apply, withReturns_of_not_mem hs']

/-- Blanks, and not none. -/
def IsGap (t : Text) : Prop := t ≠ [] ∧ AllBlank t

instance (t : Text) : Decidable (IsGap t) := inferInstanceAs (Decidable (_ ∧ _))

theorem IsGap.endsWord {gap : Text} (h : IsGap gap) (t : Text) : EndsWord (gap ++ t) := by
  obtain ⟨b, more, rfl⟩ := List.exists_cons_of_ne_nil h.1
  intro c hc
  cases hc
  exact h.2 b List.mem_cons_self

theorem semicolon_not_mem_of_allBlank {blanks : Text} (h : AllBlank blanks) : ';' ∉ blanks :=
  fun hc => absurd (h _ hc) (by decide)

theorem trimStart_append {blanks : Text} (h : AllBlank blanks) (t : Text) :
    trimStart (blanks ++ t) = trimStart t :=
  List.dropWhile_append_of_pos h

end Text

/-! ## Scanners in front of other blanks -/

namespace Scanner

variable {s t : Scanner}

/-- The scanners are in front of the same text but for the blanks that they skip. -/
def ReadsAlike (s t : Scanner) : Prop := Text.trimStart t.rest = Text.trimStart s.rest

theorem readsAlike_of_blanks {blanks blanks' : Text} (h : Text.AllBlank blanks)
    (h' : Text.AllBlank blanks') (p q : Nat) (rest : Text) :
    ReadsAlike ⟨p, blanks ++ rest⟩ ⟨q, blanks' ++ rest⟩ := by
  rw [ReadsAlike, Text.trimStart_append h, Text.trimStart_append h']

theorem ReadsAlike.nextWord (h : s.ReadsAlike t) :
    t.nextWord.1.map Field.text = s.nextWord.1.map Field.text ∧
      t.nextWord.2.rest = s.nextWord.2.rest := by
  have hskip : t.skipBlanks.rest = s.skipBlanks.rest := h
  unfold Scanner.nextWord
  dsimp only
  rw [skipWhile, skipWhile, hskip]
  cases hrest : s.skipBlanks.rest with
  | nil => exact ⟨rfl, hskip⟩
  | cons c rest => exact ⟨rfl, rfl⟩

theorem ReadsAlike.remainder (h : s.ReadsAlike t) :
    t.remainder.1.map Field.text = s.remainder.1.map Field.text := by
  have hskip : t.skipBlanks.rest = s.skipBlanks.rest := h
  unfold Scanner.remainder
  dsimp only
  rw [hskip]
  cases s.skipBlanks.rest with
  | nil => rfl
  | cons c rest => rfl

end Scanner

/-! ## Statements without places -/

/-- The field at the start of a line. -/
def Field.unplaced (f : Field) : Field := ⟨f.text, 0⟩

theorem Field.map_unplaced_congr {o p : Option Field} (h : p.map Field.text = o.map Field.text) :
    p.map unplaced = o.map unplaced := by
  have hcomp : unplaced = (fun t => ⟨t, 0⟩) ∘ text := rfl
  rw [hcomp, ← Option.map_map, ← Option.map_map, h]

namespace Statement

/-- What a statement says, without the places of its fields: its kind and the texts of its label,
keyword, mnemonic and operand. -/
def unplaced : Statement → Statement
  | empty => empty
  | origin keyword operand => origin keyword.unplaced (operand.map Field.unplaced)
  | finish l => finish (l.map Field.unplaced)
  | label name => label name.unplaced
  | operation l mnemonic operand =>
    operation (l.map Field.unplaced) mnemonic.unplaced (operand.map Field.unplaced)

/-- The texts of the words alone decide what a statement says. -/
theorem unplaced_ofWords_congr {first first' : Field} {s s' : Scanner}
    (hfirst : first'.text = first.text)
    (hsecond : s'.nextWord.1.map Field.text = s.nextWord.1.map Field.text)
    (hrest : s'.nextWord.2.remainder.1.map Field.text = s.nextWord.2.remainder.1.map Field.text) :
    (ofWords first' s').unplaced = (ofWords first s).unplaced := by
  have hunplaced : first'.unplaced = first.unplaced := by
    rw [Field.unplaced, hfirst, Field.unplaced]
  have hinstruction : instructionOf first' s'.nextWord.1 = instructionOf first s.nextWord.1 := by
    rw [instructionOf, hfirst, hsecond, instructionOf]
  have hsecond' := Field.map_unplaced_congr hsecond
  unfold ofWords
  dsimp only
  rw [show first'.is "ORG" = first.is "ORG" by rw [Field.is, hfirst, Field.is],
    show isFinish first' = isFinish first by simp only [isFinish, Field.is, hfirst], hinstruction]
  split
  · simp only [unplaced, hunplaced, hsecond']
  split
  · rfl
  split
  · simp only [unplaced, hunplaced, hsecond', Option.map_none]
  · cases hs : s.nextWord.1 with
    | none =>
      have hs' : s'.nextWord.1 = none := by simpa [hs] using hsecond
      simp only [hs', unplaced, hunplaced]
    | some m =>
      obtain ⟨m', hs', hm⟩ : ∃ m', s'.nextWord.1 = some m' ∧ m'.text = m.text := by
        simpa [hs] using hsecond
      have hfinish : isFinish m' = isFinish m := by simp only [isFinish, Field.is, hm]
      have hm' : m'.unplaced = m.unplaced := by rw [Field.unplaced, hm, Field.unplaced]
      simp only [hs', hfinish]
      split
      · simp only [unplaced, Option.map_some, hunplaced]
      · simp only [unplaced, Option.map_some, hunplaced, hm', Field.map_unplaced_congr hrest]

/-- Behind the first word other blanks change no word. -/
theorem unplaced_ofWords_of_readsAlike {first first' : Field} {s s' : Scanner}
    (hfirst : first'.text = first.text) (h : s.ReadsAlike s') :
    (ofWords first' s').unplaced = (ofWords first s).unplaced := by
  obtain ⟨hsecond, hrest⟩ := h.nextWord
  refine unplaced_ofWords_congr hfirst hsecond (Scanner.ReadsAlike.remainder ?_)
  rw [Scanner.ReadsAlike, hrest]

theorem unplaced_ofCode_congr {code code' : Text}
    (h : Text.trimStart code' = Text.trimStart code) :
    (ofCode code').unplaced = (ofCode code).unplaced := by
  have halike : (Scanner.ofLine code).ReadsAlike (.ofLine code') := h
  obtain ⟨hword, hrest⟩ := halike.nextWord
  unfold ofCode
  cases hs : (Scanner.ofLine code).nextWord with
  | mk first s =>
    cases hs' : (Scanner.ofLine code').nextWord with
    | mk first' s' =>
      rw [hs, hs'] at hword hrest
      cases first with
      | none =>
        have hnone : first' = none := by simpa using hword
        rw [hnone]
      | some f =>
        obtain ⟨f', rfl, hf⟩ : ∃ f', first' = some f' ∧ f'.text = f.text := by simpa using hword
        refine unplaced_ofWords_of_readsAlike hf ?_
        rw [Scanner.ReadsAlike]
        exact congrArg Text.trimStart hrest

end Statement

/-! ## Other layouts -/

/-- One change to the layout of a line. The words that it goes by are those in front of the first
semicolon. -/
inductive Relayout : Text → Text → Prop
  /-- Other blanks in front of the first word. -/
  | first {blanks blanks' rest : Text} (h : Text.AllBlank blanks) (h' : Text.AllBlank blanks') :
    Relayout (blanks ++ rest) (blanks' ++ rest)
  /-- Another gap in front of the second word. -/
  | second {lead word gap gap' rest : Text} (hlead : Text.AllBlank lead) (hword : Text.IsWord word)
    (hcode : ';' ∉ word) (h : Text.IsGap gap) (h' : Text.IsGap gap') :
    Relayout (lead ++ (word ++ (gap ++ rest))) (lead ++ (word ++ (gap' ++ rest)))
  /-- Another gap in front of the third word. -/
  | third {lead word between word' gap gap' rest : Text} (hlead : Text.AllBlank lead)
    (hword : Text.IsWord word) (hcode : ';' ∉ word) (hbetween : Text.IsGap between)
    (hword' : Text.IsWord word') (hcode' : ';' ∉ word') (h : Text.IsGap gap)
    (h' : Text.IsGap gap') :
    Relayout (lead ++ (word ++ (between ++ (word' ++ (gap ++ rest)))))
      (lead ++ (word ++ (between ++ (word' ++ (gap' ++ rest)))))
  /-- Other blanks behind the last word, in front of a comment or the end of the line. -/
  | last {code blanks blanks' comment : Text} (hcode : ';' ∉ code)
    (hcomment : ∀ c ∈ comment.head?, c = ';') (h : Text.AllBlank blanks)
    (h' : Text.AllBlank blanks') :
    Relayout (code ++ (blanks ++ comment)) (code ++ (blanks' ++ comment))
  /-- A comment behind the line. -/
  | comment (line text : Text) : Relayout line (line ++ ';' :: text)

namespace Statement

variable {line line' : Text}

theorem unplaced_parse_congr (hcomment : isComment line' = isComment line)
    (hcode : (ofCode (codePart line')).unplaced = (ofCode (codePart line)).unplaced) :
    (parse line').unplaced = (parse line).unplaced := by
  rw [parse, parse, hcomment]
  split
  · rfl
  · exact hcode

/-- The first word of a line and what the scanner has left behind it. -/
theorem nextWord_codePart {lead word gap rest : Text} (hlead : Text.AllBlank lead)
    (hword : Text.IsWord word) (hcode : ';' ∉ word) (hgap : Text.IsGap gap) :
    (Scanner.ofLine (codePart (lead ++ (word ++ (gap ++ rest))))).nextWord =
      (some ⟨word, Text.size lead⟩,
        ⟨Text.size lead + Text.size word, gap ++ codePart rest⟩) := by
  rw [codePart_append (Text.semicolon_not_mem_of_allBlank hlead), codePart_append hcode,
    codePart_append (Text.semicolon_not_mem_of_allBlank hgap.2)]
  exact Scanner.nextWord_eq_some_iff.2
    ⟨lead, hlead, hword, hgap.endsWord _, rfl, (Nat.zero_add _).symm, rfl⟩

theorem isComment_behind_word {lead word : Text} (hword : Text.IsWord word) (t u : Text) :
    isComment (lead ++ (word ++ t)) = isComment (lead ++ (word ++ u)) := by
  obtain ⟨c, hc⟩ := List.exists_mem_of_ne_nil _ hword.1
  rw [← List.append_assoc, ← List.append_assoc]
  exact isComment_append ⟨c, List.mem_append_right _ hc, hword.2 c hc⟩ t u

/-- A line of blanks and a comment is empty, and so is a line of blanks. -/
theorem parse_of_allBlank {blanks comment : Text} (h : Text.AllBlank blanks)
    (hcomment : ∀ c ∈ comment.head?, c = ';') : parse (blanks ++ comment) = empty := by
  cases comment with
  | nil => exact (congrArg parse (List.append_nil blanks)).trans (parse_append_blanks h [])
  | cons c text =>
    obtain rfl : c = ';' := hcomment c rfl
    have hhead : isComment (blanks ++ ';' :: text) = true := by
      rw [isComment, Text.trimStart_append h]
      rfl
    exact parse_of_isComment hhead

/-- A comment, or nothing, behind the code of a line changes nothing. -/
theorem parse_append_comment {code comment : Text} (hcode : ';' ∉ code)
    (hcomment : ∀ c ∈ comment.head?, c = ';') : parse (code ++ comment) = parse code := by
  by_cases hblank : Text.AllBlank code
  · rw [parse_of_allBlank hblank hcomment, ← List.append_nil code,
      parse_of_allBlank hblank (by simp)]
  · obtain ⟨c, hc, hcb⟩ : ∃ c ∈ code, Text.isBlank c = false := by
      simpa [Text.AllBlank] using hblank
    have hhead := isComment_append ⟨c, hc, hcb⟩ comment []
    have hpart : codePart comment = [] := by
      cases comment with
      | nil => rfl
      | cons d text => rw [hcomment d rfl]; rfl
    rw [List.append_nil] at hhead
    rw [parse, hhead, codePart_append hcode, hpart, List.append_nil, parse, codePart_eq_self hcode]

/-- Whatever is behind a semicolon, only the code in front of it counts. -/
theorem parse_codePart (line : Text) : parse line = parse (codePart line) := by
  have hcomment : ∀ c ∈ (line.dropWhile (· != ';')).head?, c = ';' := by
    intro c hc
    have := List.head?_dropWhile_not (· != ';') line
    rw [Option.mem_def.1 hc] at this
    simpa using this
  conv => lhs; rw [← List.takeWhile_append_dropWhile (p := (· != ';')) (l := line)]
  exact parse_append_comment (semicolon_not_mem_codePart line) hcomment

/-- One change of the layout keeps what a statement says. -/
theorem unplaced_parse_of_relayout (h : Relayout line line') :
    (parse line').unplaced = (parse line).unplaced := by
  cases h with
  | @first blanks blanks' rest h h' =>
    have htrim : ∀ t, Text.trimStart (blanks' ++ t) = Text.trimStart (blanks ++ t) := fun t => by
      rw [Text.trimStart_append h, Text.trimStart_append h']
    refine unplaced_parse_congr (isComment_congr (congrArg List.head? (htrim rest))) ?_
    rw [codePart_append (Text.semicolon_not_mem_of_allBlank h),
      codePart_append (Text.semicolon_not_mem_of_allBlank h')]
    exact unplaced_ofCode_congr (htrim _)
  | second hlead hword hcode h h' =>
    refine unplaced_parse_congr (isComment_behind_word hword _ _) ?_
    rw [ofCode, nextWord_codePart hlead hword hcode h', ofCode,
      nextWord_codePart hlead hword hcode h]
    exact unplaced_ofWords_of_readsAlike rfl (Scanner.readsAlike_of_blanks h.2 h'.2 _ _ _)
  | @third lead word between word' gap gap' rest hlead hword hcode hbetween hword' hcode' h h' =>
    refine unplaced_parse_congr (isComment_behind_word hword _ _) ?_
    have hsecond : ∀ {g : Text}, Text.IsGap g → ∀ p,
        Scanner.nextWord ⟨p, between ++ codePart (word' ++ (g ++ rest))⟩ =
          (some ⟨word', p + Text.size between⟩,
            ⟨p + Text.size between + Text.size word', g ++ codePart rest⟩) := by
      intro g hg p
      rw [codePart_append hcode', codePart_append (Text.semicolon_not_mem_of_allBlank hg.2)]
      exact Scanner.nextWord_eq_some_iff.2
        ⟨between, hbetween.2, hword', hg.endsWord _, rfl, rfl, rfl⟩
    rw [ofCode, nextWord_codePart hlead hword hcode hbetween, ofCode,
      nextWord_codePart hlead hword hcode hbetween]
    refine unplaced_ofWords_congr rfl ?_ ?_
    · rw [hsecond h, hsecond h']
    · rw [hsecond h, hsecond h']
      exact (Scanner.readsAlike_of_blanks h.2 h'.2 _ _ _).remainder
  | @last code blanks blanks' comment hcode hcomment h h' =>
    have hdrop : ∀ {b : Text}, Text.AllBlank b → parse (code ++ (b ++ comment)) = parse code := by
      intro b hb
      have hboth : ';' ∉ code ++ b := by
        simp [hcode, Text.semicolon_not_mem_of_allBlank hb]
      rw [← List.append_assoc, parse_append_comment hboth hcomment, parse_append_blanks hb]
    rw [hdrop h, hdrop h']
  | comment _ text =>
    have hpart : codePart (line ++ ';' :: text) = codePart line := by
      by_cases hsemicolon : ';' ∈ line
      · have hlength : (line.takeWhile (· != ';')).length ≠ line.length := by
          intro hlength
          have hall := (List.takeWhile_prefix (· != ';')).eq_of_length hlength
          rw [← hall] at hsemicolon
          exact semicolon_not_mem_codePart line hsemicolon
        rw [codePart, List.takeWhile_append, if_neg hlength, codePart]
      · rw [codePart_append hsemicolon, codePart_eq_self hsemicolon]
        exact List.append_nil line
    rw [parse_codePart, hpart, ← parse_codePart]

end Statement

/-- **The layout of a source does not matter.** Other blanks in front of the first word of a line,
another gap in front of its second or third, other blanks behind the last and a comment behind the
line, made or undone in any order, keep the kind of its statement and the texts of its fields. Line
ends of two characters keep the whole assembly, with the places of its faults. -/
theorem layout_independent :
    (∀ line line' : Text, Relation.EqvGen Relayout line line' →
      (Statement.parse line').unplaced = (Statement.parse line).unplaced) ∧
    ∀ (source : Text) (base : Word), '\r' ∉ source →
      ((Assembler.ofSource (Text.withReturns source)).withOrigin base).assemble =
        ((Assembler.ofSource source).withOrigin base).assemble := by
  refine ⟨fun line line' h => ?_, fun source base h => ?_⟩
  · induction h with
    | rel _ _ h => exact Statement.unplaced_parse_of_relayout h
    | refl _ => rfl
    | symm _ _ _ ih => exact ih.symm
    | trans _ _ _ _ _ ih ih' => exact ih'.trans ih
  · rw [Assembler.ofSource, Text.lines_withReturns h, Assembler.ofSource]

/-- A wide blank in front of a label, a tab behind it and a comment, and a source with a fault. -/
theorem layout_independent_of_wide_blank :
    let word : Text := "LOOP"
    let rest : Text := "LDAA #5"
    let line := word ++ ([' '] ++ rest)
    let line' := ['\u3000'] ++ (word ++ (['\t'] ++ rest)) ++ ';' :: "five"
    let source : Text := "LOOP BNE LOOP\n LDAA #$ZZ\n"
    Relation.EqvGen Relayout line line' ∧
      (Statement.parse line').unplaced = (Statement.parse line).unplaced ∧ '\r' ∉ source ∧
      ((Assembler.ofSource (Text.withReturns source)).withOrigin 0xC000).assemble =
        ((Assembler.ofSource source).withOrigin 0xC000).assemble := by
  intro word rest line line' source
  have hfirst : Relayout line (['\u3000'] ++ line) :=
    @Relayout.first [] ['\u3000'] line (by decide) (by decide)
  have hsecond : Relayout (['\u3000'] ++ line) (['\u3000'] ++ (word ++ (['\t'] ++ rest))) :=
    .second (by decide) (by decide) (by decide) (by decide) (by decide)
  have hline : Relation.EqvGen Relayout line line' :=
    ((Relation.EqvGen.rel _ _ hfirst).trans _ _ _ (.rel _ _ hsecond)).trans _ _ _
      (.rel _ _ (.comment _ "five"))
  have hsource : '\r' ∉ source := by decide
  exact ⟨hline, layout_independent.1 line line' hline, hsource,
    layout_independent.2 source 0xC000 hsource⟩

end Mc6800
