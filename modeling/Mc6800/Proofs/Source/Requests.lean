import Mc6800.Proofs.Source.Scanning

/-!
# Requests to a scanner

A scanner is asked for words and for all that is left of its line, in any order. The fields that it
hands out stand in the line from left to right with nothing but blanks between them, and once there
is none left it stays so (`Scanner.AreAnswers`). Asked for words alone it hands out the maximal
pieces without blanks, all of them and in order (`Scanner.exists_words`).
-/

set_option autoImplicit false

namespace Mc6800

/-! ## Pieces of a line -/

namespace Text

/-- There are only blanks between two places of a line. -/
def BlankBetween (line : Text) (start stop : Nat) : Prop :=
  ∃ before blanks after, line = before ++ (blanks ++ after) ∧ start = size before ∧
    stop = size before + size blanks ∧ AllBlank blanks

/-- Where a word ends, no other word begins. -/
theorem eq_of_word_append {v w t u : Text} (hv : IsWord v) (hw : IsWord w)
    (ht : EndsWord t) (hu : EndsWord u) (h : v ++ t = w ++ u) : v = w ∧ t = u := by
  have hcut {w u : Text} (hw : IsWord w) (hu : EndsWord u) :=
    span_append (p := fun c => !isBlank c) (s := w) (t := u)
      (fun c hc => by simp [hw.2 c hc]) (fun c hc => by simp [hu c hc])
  obtain ⟨htake, hdrop⟩ := hcut hv ht
  rw [h] at htake hdrop
  exact ⟨htake.symm.trans (hcut hw hu).1, hdrop.symm.trans (hcut hw hu).2⟩

/-- A maximal piece is the first word or stands behind it. -/
theorem eq_or_behind_word {blanks w rest before v after : Text} (hb : AllBlank blanks)
    (hw : IsWord w) (hrest : EndsWord rest) (hv : IsWord v)
    (hbefore : ∀ c ∈ before.getLast?, isBlank c = true) (hafter : EndsWord after)
    (h : before ++ (v ++ after) = blanks ++ (w ++ rest)) :
    (before = blanks ∧ v = w) ∨
      ∃ gap, before = blanks ++ (w ++ gap) ∧ rest = gap ++ (v ++ after) := by
  rcases List.append_eq_append_iff.1 h with ⟨inner, hblanks, hinner⟩ | ⟨inner, hbefore', hinner⟩
  · cases inner with
    | nil =>
      obtain ⟨hvw, -⟩ := eq_of_word_append hv hw hafter hrest hinner
      exact .inl ⟨by rw [hblanks, List.append_nil], hvw⟩
    | cons c inner =>
      -- A word does not begin among the blanks.
      obtain ⟨d, more, rfl⟩ := List.exists_cons_of_ne_nil hv.1
      obtain ⟨rfl, -⟩ := List.cons.inj hinner
      have hblank := hb d (by rw [hblanks]; simp)
      rw [hv.2 d List.mem_cons_self] at hblank
      cases hblank
  · rcases List.append_eq_append_iff.1 hinner with ⟨gap, hgap, hrest'⟩ | ⟨tail, hw', htail⟩
    · exact .inr ⟨gap, by rw [hbefore', hgap], hrest'⟩
    · rcases List.eq_nil_or_concat inner with rfl | ⟨first, c, rfl⟩
      · rw [List.nil_append] at hw' hinner
        obtain ⟨hvw, -⟩ := eq_of_word_append hv hw hafter hrest hinner.symm
        exact .inl ⟨by rw [hbefore', List.append_nil], hvw⟩
      · -- Nor does it begin inside of the first word.
        have hblank := hbefore c (by rw [hbefore']; simp)
        rw [hw.2 c (by rw [hw']; simp)] at hblank
        cases hblank

end Text

/-- The field is a piece without blanks of what is left to a scanner, at its own place, and cannot
be made longer: on either side of it there is a blank, or nothing is left. -/
def Field.IsMaximalIn (f : Field) (s : Scanner) : Prop :=
  ∃ before after, s.rest = before ++ (f.text ++ after) ∧
    f.start = s.position + Text.size before ∧ Text.IsWord f.text ∧
    (∀ c ∈ before.getLast?, Text.isBlank c = true) ∧ Text.EndsWord after

namespace Scanner

variable {s t : Scanner} {f : Field} {line : Text}

/-! ## Requests -/

/-- What a scanner may be asked for. -/
inductive Request where
  /-- The next word. -/
  | word
  /-- All that is left. -/
  | remainder
  deriving DecidableEq, Repr

/-- The answer to a request, and the scanner behind it. -/
def answer (s : Scanner) : Request → Option Field × Scanner
  | .word => s.nextWord
  | .remainder => s.remainder

/-- The answers to requests, one after the other. -/
def answers (s : Scanner) : List Request → List (Option Field)
  | [] => []
  | request :: rest => (s.answer request).1 :: (s.answer request).2.answers rest

/-- The scanner behind requests. -/
def behind (s : Scanner) (requests : List Request) : Scanner :=
  requests.foldl (fun s request => (s.answer request).2) s

theorem length_answers (s : Scanner) (requests : List Request) :
    (s.answers requests).length = requests.length := by
  induction requests generalizing s with
  | nil => rfl
  | cons request rest ih => rw [answers, List.length_cons, ih, List.length_cons]

theorem getElem?_answers (s : Scanner) (requests : List Request) (i : Nat) :
    (s.answers requests)[i]? =
      requests[i]?.map fun request => ((s.behind (requests.take i)).answer request).1 := by
  induction requests generalizing s i with
  | nil => rfl
  | cons request rest ih =>
    cases i with
    | zero => rfl
    | succ i => exact ih _ i

theorem behind_take_succ {requests : List Request} {i : Nat} {request : Request}
    (h : requests[i]? = some request) :
    s.behind (requests.take (i + 1)) = ((s.behind (requests.take i)).answer request).2 := by
  rw [behind, List.take_add_one, h, Option.toList_some, List.foldl_append]
  rfl

/-! ## One request -/

/-- A scanner answers by skipping alone, so it keeps all that skipping keeps. -/
theorem answer_of_skipWhile {P : Scanner → Prop} (hskip : ∀ s p, P s → P (s.skipWhile p))
    (h : P s) (request : Request) : P (s.answer request).2 := by
  have hblanks : P s.skipBlanks := hskip _ _ h
  cases request with
  | word =>
    change P s.nextWord.2
    unfold nextWord
    dsimp only
    split
    · exact hblanks
    · exact hskip _ _ hblanks
  | remainder =>
    change P s.remainder.2
    unfold remainder
    dsimp only
    split
    · exact hblanks
    · exact hskip _ _ hblanks

theorem Reads.answer (h : s.Reads line) (request : Request) : (s.answer request).2.Reads line :=
  answer_of_skipWhile (P := (·.Reads line)) (fun _ p hs => hs.skipWhile p) h request

theorem isIn_of_answer (h : s.Reads line) {request : Request}
    (hf : (s.answer request).1 = some f) : f.IsIn line := by
  cases request with
  | word => exact h.nextWord.1 f hf
  | remainder => exact h.remainder f hf

/-- In front of a field there are only blanks that were not passed yet. -/
theorem blankBetween_of_answer (h : s.Reads line) {request : Request}
    (hf : (s.answer request).1 = some f) : line.BlankBetween s.position f.start := by
  obtain ⟨passed, rfl, hposition⟩ := h
  cases request with
  | word =>
    obtain ⟨blanks, hb, -, -, hrest, hstart, -⟩ :=
      nextWord_eq_some_iff.1 (show s.nextWord = (some f, s.nextWord.2) from Prod.ext hf rfl)
    exact ⟨passed, blanks, _, by rw [hrest], hposition, by omega, hb⟩
  | remainder =>
    obtain ⟨blanks, trail, hb, -, -, hrest, hstart⟩ := remainder_eq_some_iff.1 hf
    exact ⟨passed, blanks, _, by rw [hrest], hposition, by omega, hb⟩

/-- A scanner stops at the end of the word that it hands out. -/
theorem position_nextWord (hf : s.nextWord.1 = some f) : s.nextWord.2.position = f.span.stop := by
  obtain ⟨-, -, -, -, -, -, hposition⟩ :=
    nextWord_eq_some_iff.1 (show s.nextWord = (some f, s.nextWord.2) from Prod.ext hf rfl)
  exact hposition

/-- Behind a remainder there are only blanks. -/
theorem blankBetween_of_remainder (h : s.Reads line) (hf : s.remainder.1 = some f) :
    line.BlankBetween f.span.stop (Text.size line) := by
  obtain ⟨passed, rfl, hposition⟩ := h
  obtain ⟨blanks, trail, -, htrail, -, hrest, hstart⟩ := remainder_eq_some_iff.1 hf
  refine ⟨passed ++ (blanks ++ f.text), trail, [], ?_, ?_, ?_, htrail⟩
  · rw [hrest]
    simp only [List.append_assoc, List.append_nil]
  · simp only [Field.span, Span.stop, Text.size_append]
    omega
  · rw [hrest]
    simp only [Text.size_append]
    omega

/-! ## The end of a line -/

/-- Nothing is left to hand out. -/
def IsExhausted (s : Scanner) : Prop := Text.AllBlank s.rest

theorem answer_eq_none_iff (request : Request) :
    (s.answer request).1 = none ↔ s.IsExhausted := by
  cases request with
  | word => exact nextWord_eq_none_iff
  | remainder => exact remainder_eq_none_iff

theorem IsExhausted.skipWhile (h : s.IsExhausted) (p : Char → Bool) :
    (s.skipWhile p).IsExhausted := fun c hc =>
  h c ((List.dropWhile_suffix p).subset hc)

theorem IsExhausted.answer (h : s.IsExhausted) (request : Request) :
    (s.answer request).2.IsExhausted :=
  answer_of_skipWhile (P := IsExhausted) (fun _ p hs => hs.skipWhile p) h request

theorem isExhausted_of_remainder (hf : s.remainder.1 = some f) : s.remainder.2.IsExhausted := by
  unfold remainder at hf ⊢
  dsimp only at hf ⊢
  split at hf
  · cases hf
  · have hrest : (s.skipBlanks.skipWhile fun _ => true).rest = [] :=
      List.dropWhile_eq_nil_iff.2 fun _ _ => rfl
    intro c hc
    rw [hrest] at hc
    cases hc

/-- A scanner with nothing left has nothing left later. -/
theorem IsExhausted.behind_take {requests : List Request} {i j : Nat}
    (h : (s.behind (requests.take i)).IsExhausted) (hij : i ≤ j) :
    (s.behind (requests.take j)).IsExhausted := by
  induction j, hij using Nat.le_induction with
  | base => exact h
  | succ j hij ih =>
    cases hrequest : requests[j]? with
    | some request =>
      rw [behind_take_succ hrequest]
      exact ih.answer request
    | none => rwa [List.take_add_one, hrequest, Option.toList_none, List.append_nil]

/-! ## All requests -/

/-- The answers to requests are fields of a line from left to right, as long as there are any. -/
structure AreAnswers (line : Text) (requests : List Request) (answers : List (Option Field)) :
    Prop where
  length : answers.length = requests.length
  /-- A field begins and ends with something else than a blank, and is found at its span. -/
  field : ∀ (i : Nat) (f : Field), answers[i]? = some (some f) →
    Text.IsTrimmed f.text ∧ line.slice? f.span = some f.text
  /-- A word has no blank in it. -/
  word : ∀ (i : Nat) (f : Field), requests[i]? = some .word → answers[i]? = some (some f) →
    Text.IsWord f.text
  first : ∀ f : Field, answers[0]? = some (some f) → line.BlankBetween 0 f.start
  next : ∀ (i : Nat) (f g : Field), answers[i]? = some (some f) →
    answers[i + 1]? = some (some g) →
    line.BlankBetween f.span.stop g.start
  /-- Where there is no field there is none later. -/
  final : ∀ (i j : Nat) (answer : Option Field), i ≤ j → answers[i]? = some none →
    answers[j]? = some answer → answer = none
  /-- A remainder takes all that is left but the blanks behind it. -/
  remainder : ∀ (i : Nat) (f : Field), requests[i]? = some .remainder →
    answers[i]? = some (some f) →
    line.BlankBetween f.span.stop (Text.size line) ∧
      ∀ (j : Nat) (answer : Option Field), i < j → answers[j]? = some answer → answer = none

theorem exists_request_of_answers {requests : List Request} {i : Nat} {answer : Option Field}
    (h : (s.answers requests)[i]? = some answer) :
    ∃ request, requests[i]? = some request ∧
      ((s.behind (requests.take i)).answer request).1 = answer := by
  rw [getElem?_answers] at h
  exact Option.map_eq_some_iff.1 h

theorem Reads.behind (h : s.Reads line) (requests : List Request) :
    (s.behind requests).Reads line := by
  induction requests generalizing s with
  | nil => exact h
  | cons request rest ih => exact ih (h.answer request)

theorem eq_none_of_isExhausted {requests : List Request} {i j : Nat} {answer : Option Field}
    (h : (s.behind (requests.take i)).IsExhausted) (hij : i ≤ j)
    (hj : (s.answers requests)[j]? = some answer) : answer = none := by
  obtain ⟨request, -, rfl⟩ := exists_request_of_answers hj
  exact (answer_eq_none_iff request).2 (h.behind_take hij)

theorem areAnswers (line : Text) (requests : List Request) :
    AreAnswers line requests ((ofLine line).answers requests) := by
  have hreads (i : Nat) : ((ofLine line).behind (requests.take i)).Reads line :=
    (reads_ofLine line).behind _
  constructor
  case length => exact length_answers ..
  case field =>
    intro i f hf
    obtain ⟨request, -, hanswer⟩ := exists_request_of_answers hf
    have hin := isIn_of_answer (hreads i) hanswer
    exact ⟨hin.trimmed, hin.slice?⟩
  case word =>
    intro i f hi hf
    obtain ⟨request, hrequest, hanswer⟩ := exists_request_of_answers hf
    obtain rfl : .word = request := Option.some.inj (hi.symm.trans hrequest)
    obtain ⟨-, -, hword, -⟩ := nextWord_eq_some_iff.1 (Prod.ext hanswer rfl)
    exact hword
  case first =>
    intro f hf
    obtain ⟨request, -, hanswer⟩ := exists_request_of_answers hf
    exact blankBetween_of_answer (hreads 0) hanswer
  case next =>
    intro i f g hf hg
    obtain ⟨request, hrequest, hanswer⟩ := exists_request_of_answers hf
    obtain ⟨request', -, hanswer'⟩ := exists_request_of_answers hg
    have hblank := blankBetween_of_answer (hreads (i + 1)) hanswer'
    rw [behind_take_succ hrequest] at hanswer' hblank
    cases request with
    | word =>
      rwa [show (answer _ .word).2.position = _ from position_nextWord hanswer] at hblank
    | remainder =>
      -- A remainder leaves nothing for a further field.
      have hnone := (answer_eq_none_iff request').2 (isExhausted_of_remainder hanswer)
      rw [show answer _ .remainder = Scanner.remainder _ from rfl, hnone] at hanswer'
      cases hanswer'
  case final =>
    intro i j answer hij hi hj
    obtain ⟨request, -, hanswer⟩ := exists_request_of_answers hi
    exact eq_none_of_isExhausted ((answer_eq_none_iff request).1 hanswer) hij hj
  case remainder =>
    intro i f hi hf
    obtain ⟨request, hrequest, hanswer⟩ := exists_request_of_answers hf
    obtain rfl : .remainder = request := Option.some.inj (hi.symm.trans hrequest)
    have hend : ((ofLine line).behind (requests.take (i + 1))).IsExhausted := by
      rw [behind_take_succ hrequest]
      exact isExhausted_of_remainder hanswer
    exact ⟨blankBetween_of_remainder (hreads i) hanswer,
      fun j answer hij hj => eq_none_of_isExhausted hend hij hj⟩

/-! ## All words -/

theorem IsExhausted.answers (h : s.IsExhausted) (requests : List Request) :
    s.answers requests = List.replicate requests.length none := by
  induction requests generalizing s with
  | nil => rfl
  | cons request rest ih =>
    rw [Scanner.answers, (answer_eq_none_iff request).2 h, ih (h.answer request)]
    rfl

theorem IsExhausted.not_isMaximalIn (h : s.IsExhausted) (f : Field) : ¬f.IsMaximalIn s := by
  rintro ⟨before, after, hrest, -, hw, -, -⟩
  obtain ⟨c, hc⟩ := List.exists_mem_of_ne_nil _ hw.1
  have hblank := h c (by rw [hrest]; simp [hc])
  rw [hw.2 c hc] at hblank
  cases hblank

/-- The maximal pieces are the next word and those that are left behind it. -/
theorem isMaximalIn_iff_of_nextWord (h : s.nextWord = (some f, t)) {g : Field} :
    g.IsMaximalIn s ↔ g = f ∨ g.IsMaximalIn t := by
  obtain ⟨blanks, hb, hw, hend, hrest, hstart, hposition⟩ := nextWord_eq_some_iff.1 h
  constructor
  · rintro ⟨before, after, hsplit, hplace, hv, hbefore, hafter⟩
    rw [hrest] at hsplit
    rcases Text.eq_or_behind_word hb hw hend hv hbefore hafter hsplit.symm with
      ⟨rfl, htext⟩ | ⟨gap, rfl, hgap⟩
    · obtain ⟨text, start⟩ := g
      obtain ⟨text', start'⟩ := f
      dsimp only at htext hplace hstart
      exact .inl (by rw [htext, hplace, hstart])
    · refine .inr ⟨gap, after, hgap, ?_, hv, fun c hc => hbefore c ?_, hafter⟩
      · simp only [Text.size_append] at hplace
        omega
      · rw [List.getLast?_append, List.getLast?_append, Option.mem_def.1 hc]
        rfl
  · rintro (rfl | ⟨before, after, hsplit, hplace, hv, hbefore, hafter⟩)
    · exact ⟨blanks, t.rest, hrest, hstart, hw, fun c hc => hb c (List.mem_of_getLast? hc), hend⟩
    · rw [hsplit] at hend hrest
      have hne : before ≠ [] := hend.ne_nil hv.isTrimmed
      refine ⟨blanks ++ (f.text ++ before), after, ?_, ?_, hv, fun c hc => hbefore c ?_, hafter⟩
      · rw [hrest]
        simp only [List.append_assoc]
      · simp only [Text.size_append]
        omega
      · rw [← List.append_assoc, List.getLast?_append, List.getLast?_eq_some_getLast hne,
          Option.some_or] at hc
        rwa [List.getLast?_eq_some_getLast hne]

/-- Asked for words alone, a scanner hands out the maximal pieces of what is left, and then none. -/
theorem exists_words (s : Scanner) :
    ∃ fields : List Field, (∀ f, f ∈ fields ↔ f.IsMaximalIn s) ∧
      fields.Pairwise (fun f g => f.span.stop < g.start) ∧
      ∀ n, s.answers (List.replicate n .word) =
        (fields.map some).take n ++ List.replicate (n - fields.length) none := by
  induction hn : s.rest.length using Nat.strong_induction_on generalizing s with
  | _ size ih =>
    cases hfirst : s.nextWord.1 with
    | none =>
      have hend : s.IsExhausted := nextWord_eq_none_iff.1 hfirst
      refine ⟨[], fun f => ?_, List.Pairwise.nil, fun n => ?_⟩
      · simp [hend.not_isMaximalIn f]
      · rw [hend.answers, List.length_replicate]
        simp
    | some f =>
      obtain ⟨t, hnext⟩ : ∃ t, s.nextWord = (some f, t) := ⟨_, Prod.ext hfirst rfl⟩
      obtain ⟨blanks, -, hw, hend, hrest, -, hposition⟩ := nextWord_eq_some_iff.1 hnext
      have hlength : t.rest.length < size := by
        have := List.length_pos_iff.2 hw.1
        rw [← hn, hrest, List.length_append, List.length_append]
        omega
      obtain ⟨fields, hmem, hsorted, hanswers⟩ := ih _ hlength t rfl
      refine ⟨f :: fields, fun g => ?_, List.pairwise_cons.2 ⟨fun g hg => ?_, hsorted⟩, fun n => ?_⟩
      · rw [List.mem_cons, isMaximalIn_iff_of_nextWord hnext, hmem]
      · obtain ⟨before, after, hsplit, hplace, hv, -, -⟩ := (hmem g).1 hg
        have hgap := Text.size_pos ((hsplit ▸ hend).ne_nil hv.isTrimmed)
        rw [hplace, hposition]
        exact Nat.lt_add_of_pos_right hgap
      · cases n with
        | zero => simp [Scanner.answers]
        | succ n =>
          have hstep : s.answer .word = (some f, t) := hnext
          rw [List.replicate_succ, Scanner.answers, hstep, hanswers]
          simp

end Scanner

/-- **What a scanner hands out.** The answers to any requests are fields of the line from left to
right with only blanks between them, as long as there are any, and the answers to requests for words
are the maximal pieces of the line without blanks, all of them and in order. -/
theorem Scanner.answers_cover_line (line : Text) :
    (∀ requests : List Request,
      AreAnswers line requests ((ofLine line).answers requests)) ∧
    ∃ fields : List Field, (∀ f, f ∈ fields ↔ f.IsMaximalIn (ofLine line)) ∧
      fields.Pairwise (fun f g => f.span.stop < g.start) ∧
      ∀ n, (ofLine line).answers (List.replicate n .word) =
        (fields.map some).take n ++ List.replicate (n - fields.length) none :=
  ⟨areAnswers line, (ofLine line).exists_words⟩

/-- Blanks of several bytes are passed like any others. -/
theorem Scanner.answers_cover_line_with_wide_blanks :
    let line : Text := "\u3000HERE\u00a0LDAA  #é  extra \t"
    let requests : List Request := [.word, .word, .remainder, .word]
    (ofLine line).answers requests =
        [some ⟨"HERE", 3⟩, some ⟨"LDAA", 9⟩, some ⟨"#é  extra", 15⟩, none] ∧
      line.slice? ⟨15, 10⟩ = some ("#é  extra" : Text) ∧ line.BlankBetween 13 15 ∧
      line.BlankBetween 25 27 := by
  intro line requests
  have hanswers : (ofLine line).answers requests =
      [some ⟨"HERE", 3⟩, some ⟨"LDAA", 9⟩, some ⟨"#é  extra", 15⟩, none] := by
    decide +kernel
  obtain ⟨hall, -⟩ := answers_cover_line line
  have h := hall requests
  rw [hanswers] at h
  exact ⟨hanswers, (h.field 2 ⟨"#é  extra", 15⟩ rfl).2,
    h.next 1 ⟨"LDAA", 9⟩ ⟨"#é  extra", 15⟩ rfl rfl,
    (h.remainder 2 ⟨"#é  extra", 15⟩ rfl rfl).1⟩

end Mc6800
