import Mc6800.Proofs.Source.Scanning

/-!
# Idle lines

A line is idle if it is blank or a comment; its statement is empty (`Statement.parse_of_isIdle`).
Blanks behind a line change nothing (`Statement.parse_append_blanks`), so neither does a carriage
return in front of a line feed. What a source asks for is therefore decided by its other lines
(`codeLines`), wherever idle lines are put between them (`codeLines_insert`).
-/

set_option autoImplicit false

namespace Mc6800

/-! ## Blanks behind a text -/

namespace Text

variable {blanks : Text}

theorem trimEnd_append_blanks (h : AllBlank blanks) (t : Text) :
    trimEnd (t ++ blanks) = trimEnd t := by
  have hreverse : ∀ c ∈ blanks.reverse, isBlank c = true := fun c hc => h c (List.mem_reverse.1 hc)
  rw [trimEnd, List.reverse_append, List.dropWhile_append_of_pos hreverse, ← trimEnd]

theorem head?_trimStart_append_blanks (h : AllBlank blanks) (t : Text) :
    (trimStart (t ++ blanks)).head? = (trimStart t).head? := by
  rw [trimStart, trimStart, List.dropWhile_append]
  cases t.dropWhile isBlank with
  | nil => simp [List.dropWhile_eq_nil_iff.2 h]
  | cons c rest => rfl

theorem EndsWord.append_blanks {t : Text} (ht : EndsWord t) (h : AllBlank blanks) :
    EndsWord (t ++ blanks) := by
  cases t with
  | nil => exact fun c hc => h c (List.mem_of_head? hc)
  | cons c rest => exact ht

/-- A line end takes nothing but blanks off a line. -/
theorem exists_blanks_dropLineEnd (l : Text) :
    ∃ blanks, AllBlank blanks ∧ l = dropLineEnd (l ++ ['\n']) ++ blanks := by
  by_cases hr : l.getLast? = some '\r'
  · obtain ⟨front, rfl⟩ := List.getLast?_eq_some_iff.1 hr
    refine ⟨['\r'], fun c hc => ?_, ?_⟩
    · rw [List.mem_singleton.1 hc]
      decide
    · rw [dropLineEnd, List.reverse_concat, List.reverse_concat]
      simp
  · exact ⟨[], by simp [AllBlank], by rw [dropLineEnd_concat hr, List.append_nil]⟩

end Text

/-! ## Blanks behind a line -/

namespace Scanner

variable {blanks : Text} {s t : Scanner} {f : Field}

/-- The scanner in front of a line with more behind it. -/
def followedBy (s : Scanner) (more : Text) : Scanner := ⟨s.position, s.rest ++ more⟩

theorem allBlank_rest_followedBy (h : Text.AllBlank blanks) (hs : Text.AllBlank s.rest) :
    Text.AllBlank (s.followedBy blanks).rest := by
  intro c hc
  rcases List.mem_append.1 hc with hc | hc
  · exact hs c hc
  · exact h c hc

theorem nextWord_followedBy (h : Text.AllBlank blanks) (hs : s.nextWord = (some f, t)) :
    (s.followedBy blanks).nextWord = (some f, t.followedBy blanks) := by
  obtain ⟨before, hbefore, hword, hend, hrest, hstart, hposition⟩ := nextWord_eq_some_iff.1 hs
  refine nextWord_eq_some_iff.2
    ⟨before, hbefore, hword, hend.append_blanks h, ?_, hstart, hposition⟩
  simp only [followedBy, hrest, List.append_assoc]

theorem nextWord_followedBy_fst (h : Text.AllBlank blanks) (s : Scanner) :
    (s.followedBy blanks).nextWord.1 = s.nextWord.1 := by
  cases hs : s.nextWord.1 with
  | none =>
    exact nextWord_eq_none_iff.2 (allBlank_rest_followedBy h (nextWord_eq_none_iff.1 hs))
  | some f => rw [nextWord_followedBy h (Prod.ext hs rfl)]

theorem remainder_followedBy (h : Text.AllBlank blanks) (s : Scanner) :
    (s.followedBy blanks).remainder.1 = s.remainder.1 := by
  cases hs : s.remainder.1 with
  | none =>
    exact remainder_eq_none_iff.2 (allBlank_rest_followedBy h (remainder_eq_none_iff.1 hs))
  | some f =>
    obtain ⟨before, after, hbefore, hafter, htrim, hrest, hstart⟩ := remainder_eq_some_iff.1 hs
    refine remainder_eq_some_iff.2 ⟨before, after ++ blanks, hbefore, ?_, htrim, ?_, hstart⟩
    · exact allBlank_rest_followedBy (s := ⟨0, after⟩) h hafter
    · simp only [followedBy, hrest, List.append_assoc]

end Scanner

namespace Statement

variable {blanks line : Text}

theorem ofWords_followedBy (h : Text.AllBlank blanks) (first : Field) (s : Scanner) :
    ofWords first (s.followedBy blanks) = ofWords first s := by
  unfold ofWords
  dsimp only
  rw [Scanner.nextWord_followedBy_fst h]
  cases hs : s.nextWord.1 with
  | none => rfl
  | some second =>
    have hnext : (s.followedBy blanks).nextWord.2 = s.nextWord.2.followedBy blanks := by
      rw [Scanner.nextWord_followedBy h (Prod.ext hs rfl)]
    rw [hnext, Scanner.remainder_followedBy h]

theorem ofCode_append_blanks (h : Text.AllBlank blanks) (code : Text) :
    ofCode (code ++ blanks) = ofCode code := by
  have hline : Scanner.ofLine (code ++ blanks) = (Scanner.ofLine code).followedBy blanks := rfl
  unfold ofCode
  cases hs : (Scanner.ofLine code).nextWord with
  | mk first s =>
    cases first with
    | none =>
      have hnone := Scanner.nextWord_followedBy_fst h (Scanner.ofLine code)
      rw [hs] at hnone
      rw [hline]
      split
      · rfl
      · next hsome => rw [hsome] at hnone; cases hnone
    | some first =>
      rw [hline, Scanner.nextWord_followedBy h hs]
      exact ofWords_followedBy h first s

theorem exists_codePart_append (h : Text.AllBlank blanks) (line : Text) :
    ∃ more, Text.AllBlank more ∧ codePart (line ++ blanks) = codePart line ++ more := by
  rw [codePart, List.takeWhile_append]
  split
  · next hall =>
    refine ⟨blanks.takeWhile (· != ';'), fun c hc => ?_, ?_⟩
    · exact h c (List.takeWhile_subset _ hc)
    · rw [codePart, (List.takeWhile_prefix _).eq_of_length hall]
  · exact ⟨[], by simp [Text.AllBlank], (List.append_nil _).symm⟩

theorem isComment_congr {s t : Text} (h : (Text.trimStart s).head? = (Text.trimStart t).head?) :
    isComment s = isComment t := by
  unfold isComment
  cases hs : Text.trimStart s with
  | nil =>
    cases ht : Text.trimStart t with
    | nil => rfl
    | cons d more => simp [hs, ht] at h
  | cons c rest =>
    cases ht : Text.trimStart t with
    | nil => simp [hs, ht] at h
    | cons d more =>
      have hcd : c = d := by simpa [hs, ht] using h
      subst hcd
      split <;> simp_all

/-- Blanks behind a line change nothing. -/
theorem parse_append_blanks (h : Text.AllBlank blanks) (line : Text) :
    parse (line ++ blanks) = parse line := by
  obtain ⟨more, hmore, hcode⟩ := exists_codePart_append h line
  rw [parse, isComment_congr (Text.head?_trimStart_append_blanks h line), hcode,
    ofCode_append_blanks hmore, ← parse]

/-! ## Lines that ask for nothing -/

/-- Whether a line is blank or a comment. -/
def isIdle (line : Text) : Bool := (Text.trimStart line).isEmpty || isComment line

theorem isIdle_append_blanks (h : Text.AllBlank blanks) (line : Text) :
    isIdle (line ++ blanks) = isIdle line := by
  have hhead := Text.head?_trimStart_append_blanks h line
  have hempty : (Text.trimStart (line ++ blanks)).isEmpty = (Text.trimStart line).isEmpty := by
    rw [Bool.eq_iff_iff, List.isEmpty_iff, List.isEmpty_iff, ← List.head?_eq_none_iff, hhead,
      List.head?_eq_none_iff]
  rw [isIdle, isIdle, hempty, isComment_congr hhead]

theorem parse_of_isIdle (h : isIdle line = true) : parse line = empty := by
  rcases Bool.or_eq_true_iff.1 h with hblank | hcomment
  · have hall : Text.AllBlank line := List.dropWhile_eq_nil_iff.1 (List.isEmpty_iff.1 hblank)
    exact (congrArg parse (List.nil_append line).symm).trans (parse_append_blanks hall [])
  · exact parse_of_isComment hcomment

end Statement

/-- The lines of a source that are neither blank nor a comment, without the blanks behind them. -/
def codeLines (source : Text) : List Text :=
  ((Text.lines source).filter (!Statement.isIdle ·)).map Text.trimEnd

theorem codeLines_append_lineFeed {l : Text} (h : '\n' ∉ l) (t : Text) :
    codeLines (l ++ '\n' :: t) =
      (([l].filter (!Statement.isIdle ·)).map Text.trimEnd) ++ codeLines t := by
  obtain ⟨blanks, hblanks, hl⟩ := Text.exists_blanks_dropLineEnd l
  have hlines : Text.lines (l ++ '\n' :: t) = Text.dropLineEnd (l ++ ['\n']) :: Text.lines t := by
    rw [Text.lines, Text.segments_append_lineFeed h, List.map_cons, ← Text.lines]
  generalize Text.dropLineEnd (l ++ ['\n']) = m at hl hlines
  subst hl
  rw [codeLines, hlines, List.filter_cons, List.filter_cons,
    Statement.isIdle_append_blanks hblanks]
  cases Statement.isIdle m with
  | true => rfl
  | false => simp [codeLines, Text.trimEnd_append_blanks hblanks]

/-- Joined lines have the code lines among them, whatever line ends they have. -/
theorem codeLines_joinLines {ls : List Text} (h : ∀ l ∈ ls, '\n' ∉ l) :
    codeLines (Text.joinLines ls) = (ls.filter (!Statement.isIdle ·)).map Text.trimEnd := by
  induction ls with
  | nil => rfl
  | cons l rest ih =>
    obtain ⟨hl, hrest⟩ := List.forall_mem_cons.1 h
    cases rest with
    | nil =>
      rw [Text.joinLines, List.intercalate_singleton]
      cases l with
      | nil => rfl
      | cons c tail => rw [codeLines, Text.lines_of_not_mem hl (by simp)]
    | cons m more =>
      rw [Text.joinLines_cons_cons, codeLines_append_lineFeed hl, ih hrest, ← List.map_append,
        ← List.filter_append, List.singleton_append]

/-- **Idle lines may be put anywhere.** A line is cut from the text around it by line feeds, and may
keep the carriage return of its line end. -/
theorem codeLines_insert {front rest : List Text} {line : Text}
    (h : ∀ l ∈ front ++ line :: rest, '\n' ∉ l) (hidle : Statement.isIdle line = true) :
    codeLines (Text.joinLines (front ++ line :: rest)) =
      codeLines (Text.joinLines (front ++ rest)) := by
  have hrest : ∀ l ∈ front ++ rest, '\n' ∉ l := fun l hl =>
    h l (List.Sublist.subset (List.Sublist.append_left (List.sublist_cons_self line rest) front) hl)
  rw [codeLines_joinLines h, codeLines_joinLines hrest, List.filter_append, List.filter_append,
    List.filter_cons_of_neg (by simp [hidle])]

/-- Idle lines become empty statements, and blanks behind the other lines do not matter. -/
theorem filter_parse_lines (source : Text) :
    ((Text.lines source).map Statement.parse).filter (· ≠ .empty) =
      ((codeLines source).map Statement.parse).filter (· ≠ .empty) := by
  rw [codeLines]
  induction Text.lines source with
  | nil => rfl
  | cons l rest ih =>
    cases hidle : Statement.isIdle l with
    | true =>
      rw [List.filter_cons_of_neg (by simp [hidle]), List.map_cons, List.filter_cons_of_neg
        (by simp [Statement.parse_of_isIdle hidle]), ih]
    | false =>
      obtain ⟨blanks, hblanks, hl⟩ := Text.exists_trimEnd_append l
      have hparse : Statement.parse (Text.trimEnd l) = Statement.parse l := by
        conv => rhs; rw [hl]
        exact (Statement.parse_append_blanks hblanks _).symm
      rw [List.filter_cons_of_pos (by simp [hidle]), List.map_cons, List.map_cons, List.map_cons,
        hparse, List.filter_cons, List.filter_cons, ih]

end Mc6800
