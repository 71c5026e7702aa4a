import Mc6800.Proofs.Source.Fields

/-!
# What a scanner finds

A scanner finds a word where blanks, the word and an end of the word stand in front of it
(`Scanner.nextWord_eq_some_iff`), and a remainder where blanks stand on both sides of it
(`Scanner.remainder_eq_some_iff`). So the operand of a statement may be exchanged for another text
in its line, and all else is read as before (`Statement.parse_exchange`).
-/

set_option autoImplicit false

namespace Mc6800

/-! ## Texts around a word -/

namespace Text

/-- Nothing, or a text that begins with a blank: what stands behind a word. -/
def EndsWord (t : Text) : Prop := ∀ c ∈ t.head?, isBlank c = true

/-- Nothing, or a text that begins with something else than a blank. -/
def BeginsFilled (t : Text) : Prop := ∀ c ∈ t.head?, isBlank c = false

theorem span_append {p : Char → Bool} {s t : Text} (hs : ∀ c ∈ s, p c = true)
    (ht : ∀ c ∈ t.head?, p c = false) :
    (s ++ t).takeWhile p = s ∧ (s ++ t).dropWhile p = t := by
  rw [List.takeWhile_append_of_pos hs, List.dropWhile_append_of_pos hs]
  cases t with
  | nil => simp
  | cons c rest => simp [ht c rfl]

theorem beginsFilled_dropWhile (t : Text) : BeginsFilled (t.dropWhile isBlank) := by
  intro c hc
  have := List.head?_dropWhile_not isBlank t
  rw [Option.mem_def.1 hc] at this
  simpa using this

theorem endsWord_dropWhile (t : Text) : EndsWord (t.dropWhile fun c => !isBlank c) := by
  intro c hc
  have := List.head?_dropWhile_not (fun c => !isBlank c) t
  rw [Option.mem_def.1 hc] at this
  simpa using this

theorem allBlank_takeWhile (t : Text) : AllBlank (t.takeWhile isBlank) :=
  fun _ hc => List.mem_takeWhile_imp hc

theorem IsTrimmed.beginsFilled_append {t : Text} (h : IsTrimmed t) (u : Text) :
    BeginsFilled (t ++ u) := by
  obtain ⟨⟨c, hc, hcb⟩, -⟩ := h
  intro d hd
  rw [List.head?_append, Option.mem_def.1 hc, Option.some_or, Option.mem_def, Option.some.injEq]
    at hd
  rwa [← hd]

/-- What a text begins with decides whether it ends a word. -/
theorem EndsWord.exchange {s t : Text} (h : EndsWord (s ++ t)) (hs : s ≠ []) (u : Text) :
    EndsWord (s ++ u) := by
  obtain ⟨c, rest, rfl⟩ := List.exists_cons_of_ne_nil hs
  exact h

/-- Between two words there is a blank. -/
theorem EndsWord.ne_nil {blanks w t : Text} (h : EndsWord (blanks ++ (w ++ t)))
    (hw : IsTrimmed w) : blanks ≠ [] := by
  rintro rfl
  obtain ⟨⟨c, hc, hcb⟩, -⟩ := hw
  have := h c (by rw [List.nil_append, List.head?_append, Option.mem_def.1 hc]; rfl)
  rw [hcb] at this
  cases this

theorem trimEnd_append {t blanks : Text} (h : IsTrimmed t) (hb : AllBlank blanks) :
    trimEnd (t ++ blanks) = t := by
  obtain ⟨-, ⟨d, hd, hdb⟩⟩ := h
  obtain ⟨body, rfl⟩ := List.getLast?_eq_some_iff.1 hd
  have hreverse : ∀ c ∈ blanks.reverse, isBlank c = true := fun c hc => hb c (List.mem_reverse.1 hc)
  rw [trimEnd, List.reverse_append, List.dropWhile_append_of_pos hreverse, List.reverse_concat,
    List.dropWhile_cons_of_neg (by simp [hdb])]
  simp

theorem size_pos {t : Text} (h : t ≠ []) : 0 < size t := by
  obtain ⟨c, rest, rfl⟩ := List.exists_cons_of_ne_nil h
  have := c.utf8Size_pos
  rw [size_cons]
  omega

/-- A text is cut in one way only into pieces of given sizes. -/
theorem append_inj_of_size {s s' t t' : Text} (h : s ++ t = s' ++ t') (hsize : size s = size s') :
    s = s' ∧ t = t' := by
  induction s generalizing s' with
  | nil =>
    cases s' with
    | nil => exact ⟨rfl, h⟩
    | cons c rest =>
      have := size_pos (List.cons_ne_nil c rest)
      simp only [size_nil] at hsize
      omega
  | cons c rest ih =>
    cases s' with
    | nil =>
      have := size_pos (List.cons_ne_nil c rest)
      simp only [size_nil] at hsize
      omega
    | cons d rest' =>
      rw [List.cons_append, List.cons_append] at h
      obtain ⟨rfl, htail⟩ := List.cons.inj h
      simp only [size_cons, Nat.add_left_cancel_iff] at hsize
      obtain ⟨rfl, rfl⟩ := ih htail hsize
      exact ⟨rfl, rfl⟩

end Text

/-! ## Scanners -/

namespace Scanner

variable {s t : Scanner} {f : Field}

theorem skipBlanks_append {blanks rest : Text} (hb : Text.AllBlank blanks)
    (hr : Text.BeginsFilled rest) (position : Nat) :
    skipBlanks ⟨position, blanks ++ rest⟩ = ⟨position + Text.size blanks, rest⟩ := by
  obtain ⟨htake, hdrop⟩ := Text.span_append hb hr
  rw [skipBlanks, skipWhile, htake, hdrop]

theorem exists_skipBlanks (s : Scanner) :
    ∃ blanks, Text.AllBlank blanks ∧ s.rest = blanks ++ s.skipBlanks.rest ∧
      s.skipBlanks.position = s.position + Text.size blanks ∧
      Text.BeginsFilled s.skipBlanks.rest :=
  ⟨s.rest.takeWhile Text.isBlank, Text.allBlank_takeWhile _,
    List.takeWhile_append_dropWhile.symm, rfl, Text.beginsFilled_dropWhile _⟩

/-- A scanner finds a word where blanks, the word and an end of it stand in front. -/
theorem nextWord_eq_some_iff :
    s.nextWord = (some f, t) ↔ ∃ blanks, Text.AllBlank blanks ∧ Text.IsWord f.text ∧
      Text.EndsWord t.rest ∧ s.rest = blanks ++ (f.text ++ t.rest) ∧
      f.start = s.position + Text.size blanks ∧ t.position = f.start + Text.size f.text := by
  constructor
  · intro h
    obtain ⟨blanks, hb, hrest, hposition, hfilled⟩ := s.exists_skipBlanks
    unfold nextWord at h
    dsimp only at h
    split at h
    · cases h
    · next hne =>
      cases h
      obtain ⟨c, more, hc⟩ := List.exists_cons_of_ne_nil hne
      have hcb : Text.isBlank c = false := hfilled c (by rw [hc]; rfl)
      refine ⟨blanks, hb, ⟨?_, fun d hd => ?_⟩, Text.endsWord_dropWhile _, ?_, hposition, rfl⟩
      · simp [hc, hcb]
      · have := List.mem_takeWhile_imp hd
        simpa using this
      · simp only [skipWhile]
        rw [List.takeWhile_append_dropWhile]
        exact hrest
  · rintro ⟨blanks, hb, hw, hend, hrest, hstart, hposition⟩
    have hskip : s.skipBlanks = ⟨s.position + Text.size blanks, f.text ++ t.rest⟩ := by
      rw [← skipBlanks_append hb (hw.isTrimmed.beginsFilled_append _) s.position, ← hrest]
    have hinside : ∀ c ∈ f.text, (!Text.isBlank c) = true := fun c hc => by simp [hw.2 c hc]
    obtain ⟨htake, hdrop⟩ := Text.span_append (p := fun c => !Text.isBlank c) hinside
      fun c hc => by simp [hend c hc]
    unfold nextWord
    rw [hskip]
    dsimp only
    split
    · next hnil => exact absurd (List.append_eq_nil_iff.1 hnil).1 hw.1
    · rw [skipWhile, htake, hdrop, ← hstart, ← hposition]

theorem nextWord_eq_none_iff : s.nextWord.1 = none ↔ Text.AllBlank s.rest := by
  unfold nextWord
  dsimp only
  split
  · next h => exact iff_of_true rfl (List.dropWhile_eq_nil_iff.1 h)
  · next h => exact iff_of_false (by simp) fun hb => h (List.dropWhile_eq_nil_iff.2 hb)

theorem remainder_eq_none_iff : s.remainder.1 = none ↔ Text.AllBlank s.rest := by
  unfold remainder
  dsimp only
  split
  · next h => exact iff_of_true rfl (List.dropWhile_eq_nil_iff.1 h)
  · next h => exact iff_of_false (by simp) fun hb => h (List.dropWhile_eq_nil_iff.2 hb)

/-- What is left of a line is a field with blanks around it. -/
theorem remainder_eq_some_iff :
    s.remainder.1 = some f ↔ ∃ blanks trail, Text.AllBlank blanks ∧ Text.AllBlank trail ∧
      Text.IsTrimmed f.text ∧ s.rest = blanks ++ (f.text ++ trail) ∧
      f.start = s.position + Text.size blanks := by
  constructor
  · intro h
    obtain ⟨blanks, hb, hrest, hposition, hfilled⟩ := s.exists_skipBlanks
    obtain ⟨trail, htrail, hend⟩ := Text.exists_trimEnd_append s.skipBlanks.rest
    unfold remainder at h
    dsimp only at h
    split at h
    · cases h
    · next hne =>
      cases h
      obtain ⟨c, more, hc⟩ := List.exists_cons_of_ne_nil hne
      have hhead : c ∈ s.skipBlanks.rest.head? := by rw [hc]; rfl
      refine ⟨blanks, trail, hb, htrail, Text.isTrimmed_trimEnd hhead (hfilled c hhead), ?_,
        hposition⟩
      rw [← hend]
      exact hrest
  · rintro ⟨blanks, trail, hb, htrail, htrim, hrest, hstart⟩
    have hskip : s.skipBlanks = ⟨s.position + Text.size blanks, f.text ++ trail⟩ := by
      rw [← skipBlanks_append hb (htrim.beginsFilled_append _) s.position, ← hrest]
    unfold remainder
    rw [hskip]
    dsimp only
    split
    · next hnil => exact absurd (List.append_eq_nil_iff.1 hnil).1 htrim.ne_nil
    · rw [Text.trimEnd_append htrim htrail, ← hstart]

/-- Whatever ends the word, a scanner finds the same one behind the same text. -/
theorem exists_passed_of_nextWord (h : s.nextWord = (some f, t)) :
    ∃ passed, s.rest = passed ++ t.rest ∧ t.position = s.position + Text.size passed ∧
      Text.EndsWord t.rest ∧ (∃ c ∈ passed, Text.isBlank c = false) ∧
      ∀ rest, Text.EndsWord rest →
        nextWord ⟨s.position, passed ++ rest⟩ = (some f, ⟨t.position, rest⟩) := by
  obtain ⟨blanks, hb, hw, hend, hrest, hstart, hposition⟩ := nextWord_eq_some_iff.1 h
  obtain ⟨c, hc⟩ := List.exists_mem_of_ne_nil _ hw.1
  refine ⟨blanks ++ f.text, by rw [hrest, List.append_assoc], ?_, hend,
    ⟨c, List.mem_append_right _ hc, hw.2 c hc⟩, fun rest hrest' => ?_⟩
  · rw [hposition, hstart, Text.size_append]
    omega
  · exact nextWord_eq_some_iff.2
      ⟨blanks, hb, hw, hrest', List.append_assoc .., hstart, hposition⟩

end Scanner

/-! ## Statements with an instruction -/

namespace Statement

variable {before old new after : Text} {label operand : Option Field} {first mnemonic : Field}
  {s : Scanner}

/-- A first word makes a statement with an instruction in two ways: as the mnemonic, with the next
word as the operand, or as a label in front of the mnemonic, with all that is left as the
operand. -/
theorem ofWords_eq_operation_iff :
    ofWords first s = operation label mnemonic operand ↔
      first.is "ORG" = false ∧ isFinish first = false ∧
      ((label = none ∧ mnemonic = first ∧ s.nextWord.1 = operand ∧
          (instructionOf first operand).isSome = true) ∨
        (label = some first ∧ s.nextWord.1 = some mnemonic ∧
          (instructionOf first (some mnemonic)).isSome = false ∧ isFinish mnemonic = false ∧
          s.nextWord.2.remainder.1 = operand)) := by
  unfold ofWords
  cases horigin : first.is "ORG" with
  | true => simp
  | false =>
    cases hfinish : isFinish first with
    | true => simp
    | false =>
      simp only [Bool.false_eq_true, if_false, true_and]
      cases hexists : (instructionOf first s.nextWord.1).isSome with
      | true =>
        simp only [if_true, operation.injEq]
        constructor
        · rintro ⟨hlabel, hmnemonic, hoperand⟩
          exact .inl ⟨hlabel.symm, hmnemonic.symm, hoperand, by rwa [hoperand] at hexists⟩
        · rintro (⟨rfl, rfl, hoperand, -⟩ | ⟨-, hsecond, hnone, -⟩)
          · exact ⟨rfl, rfl, hoperand⟩
          · rw [hsecond, hnone] at hexists
            cases hexists
      | false =>
        simp only [Bool.false_eq_true, if_false]
        cases hsecond : s.nextWord.1 with
        | none =>
          rw [hsecond] at hexists
          simp only [reduceCtorEq, false_and, and_false, or_false, false_iff]
          rintro ⟨-, -, rfl, h⟩
          rw [hexists] at h
          cases h
        | some m =>
          rw [hsecond] at hexists
          dsimp only
          cases hm : isFinish m with
          | true =>
            simp only [if_true, Option.some.injEq, reduceCtorEq, false_iff]
            rintro (⟨-, -, rfl, h⟩ | ⟨-, rfl, -, h, -⟩)
            · rw [hexists] at h
              cases h
            · rw [hm] at h
              cases h
          | false =>
            simp only [Bool.false_eq_true, if_false, operation.injEq, Option.some.injEq]
            constructor
            · rintro ⟨rfl, rfl, hoperand⟩
              exact .inr ⟨rfl, rfl, hexists, hm, hoperand⟩
            · rintro (⟨-, -, rfl, h⟩ | ⟨rfl, rfl, -, -, hoperand⟩)
              · rw [hexists] at h
                cases h
              · exact ⟨rfl, rfl, hoperand⟩

theorem parse_eq_operation_iff {line : Text} :
    parse line = operation label mnemonic operand ↔
      isComment line = false ∧ ∃ first s,
        (Scanner.ofLine (codePart line)).nextWord = (some first, s) ∧
          ofWords first s = operation label mnemonic operand := by
  unfold parse
  cases isComment line with
  | true => simp
  | false =>
    simp only [Bool.false_eq_true, if_false, true_and]
    unfold ofCode
    split
    · next h => simp [h]
    · next first s h =>
      constructor
      · exact fun hwords => ⟨first, s, h, hwords⟩
      · rintro ⟨first', s', h', hwords⟩
        rw [h] at h'
        cases h'
        exact hwords

/-! ## Code parts -/

theorem codePart_append {code : Text} (h : ';' ∉ code) (t : Text) :
    codePart (code ++ t) = code ++ codePart t :=
  List.takeWhile_append_of_pos fun c hc => by
    rw [bne_iff_ne]
    rintro rfl
    exact h hc

theorem codePart_eq_self {code : Text} (h : ';' ∉ code) : codePart code = code := by
  conv => lhs; rw [← List.append_nil code, codePart_append h]
  exact List.append_nil code

theorem semicolon_not_mem_codePart (line : Text) : ';' ∉ codePart line := by
  intro h
  have := List.mem_takeWhile_imp (p := (· != ';')) h
  simp at this

theorem semicolon_not_mem_of_mem_fields {line : Text} {f : Field} (hf : f ∈ (parse line).fields) :
    ';' ∉ f.text := fun h =>
  semicolon_not_mem_codePart line ((isIn_codePart_of_mem_fields f hf).subset h)

/-! ## Another operand in the same place -/

/-- Only the first characters that are not blank make a comment. -/
theorem isComment_append {passed : Text} (h : ∃ c ∈ passed, Text.isBlank c = false) (t u : Text) :
    isComment (passed ++ t) = isComment (passed ++ u) := by
  obtain ⟨c, hc, hcb⟩ := h
  have hne : passed.dropWhile Text.isBlank ≠ [] := by
    intro hnil
    have := List.dropWhile_eq_nil_iff.1 hnil c hc
    simp [hcb] at this
  have htrim : ∀ v, Text.trimStart (passed ++ v) = passed.dropWhile Text.isBlank ++ v := by
    intro v
    rw [Text.trimStart, List.dropWhile_append, if_neg (by simpa using hne)]
  obtain ⟨d, more, hd⟩ := List.exists_cons_of_ne_nil hne
  unfold isComment
  rw [htrim, htrim, hd, List.cons_append, List.cons_append]
  by_cases hstar : d = '*'
  · simp [hstar]
  · by_cases hsemicolon : d = ';'
    · simp [hsemicolon]
    · simp [hstar, hsemicolon]

/-- The code part of a line keeps its shape when a piece of it is exchanged. -/
theorem codePart_exchange {passed rest : Text}
    (hcode : codePart (before ++ (old ++ after)) = passed ++ (old ++ rest))
    (hsize : Text.size passed = Text.size before) (hsemicolon : ';' ∉ new) :
    passed = before ∧ codePart (before ++ (new ++ after)) = before ++ (new ++ rest) := by
  have hsplit : before ++ (old ++ after) = passed ++ (old ++ rest) ++
      (before ++ (old ++ after)).dropWhile (· != ';') := by
    rw [← hcode]
    exact List.takeWhile_append_dropWhile.symm
  have hinside : ∀ c ∈ passed ++ (old ++ rest), (c != ';') = true := by
    rw [← hcode]
    intro c hc
    exact List.mem_takeWhile_imp (p := (· != ';')) hc
  have hbehind : ∀ c ∈ ((before ++ (old ++ after)).dropWhile (· != ';')).head?,
      (c != ';') = false := by
    intro c hc
    have := List.head?_dropWhile_not (· != ';') (before ++ (old ++ after))
    rw [Option.mem_def.1 hc] at this
    simpa using this
  generalize (before ++ (old ++ after)).dropWhile (· != ';') = tail at hsplit hbehind
  rw [List.append_assoc, List.append_assoc] at hsplit
  obtain ⟨rfl, hrest⟩ := Text.append_inj_of_size hsplit hsize.symm
  have hafter : after = rest ++ tail := List.append_cancel_left hrest
  refine ⟨rfl, ?_⟩
  have hnew : ∀ c ∈ before ++ (new ++ rest), (c != ';') = true := by
    intro c hc
    simp only [List.mem_append] at hc hinside
    rcases hc with hc | hc | hc
    · exact hinside c (.inl hc)
    · rw [bne_iff_ne]
      rintro rfl
      exact hsemicolon hc
    · exact hinside c (.inr (.inr hc))
  rw [codePart, hafter, ← List.append_assoc new, ← List.append_assoc before]
  exact (Text.span_append hnew hbehind).1

/-- A line is read on behind its first word when a piece further on is exchanged. -/
theorem parse_of_exchange {passed rest : Text} {st : Statement}
    (hcomment : isComment (before ++ (old ++ after)) = false)
    (hfirst : (Scanner.ofLine (codePart (before ++ (old ++ after)))).nextWord = (some first, s))
    (hrest : s.rest = passed ++ (old ++ rest)) (hpassed : passed ≠ [])
    (hsize : s.position + Text.size passed = Text.size before) (hsemicolon : ';' ∉ new)
    (hwords : ofWords first ⟨s.position, passed ++ (new ++ rest)⟩ = st) :
    parse (before ++ (new ++ after)) = st := by
  obtain ⟨word, hcode, hposition, hend, hfilled, hagain⟩ := Scanner.exists_passed_of_nextWord hfirst
  simp only [Scanner.rest_ofLine, Scanner.position_ofLine, Nat.zero_add] at hcode hposition hagain
  have hpiece : codePart (before ++ (old ++ after)) = (word ++ passed) ++ (old ++ rest) := by
    rw [hcode, hrest, List.append_assoc]
  obtain ⟨rfl, hpiece'⟩ := codePart_exchange hpiece
    (by rw [Text.size_append, ← hposition, hsize]) hsemicolon
  rw [hrest] at hend
  have hcomment' : isComment ((word ++ passed) ++ (new ++ after)) = false := by
    rw [← hcomment, List.append_assoc, List.append_assoc]
    exact isComment_append hfilled _ _
  have hfirst' : (Scanner.ofLine (codePart ((word ++ passed) ++ (new ++ after)))).nextWord =
      (some first, ⟨s.position, passed ++ (new ++ rest)⟩) := by
    rw [hpiece', List.append_assoc]
    exact hagain _ (hend.exchange hpassed _)
  rw [parse, hcomment', ofCode, hfirst']
  exact hwords

/-- Without a label the word in the place of the operand is the second word of the line. -/
theorem exists_scanner_exchange
    (h : parse (before ++ (old ++ after)) =
      operation none mnemonic (some ⟨old, Text.size before⟩))
    (hword : Text.IsWord old → Text.IsWord new) (hsemicolon : ';' ∉ new) :
    mnemonic.is "ORG" = false ∧ isFinish mnemonic = false ∧
      ∃ s, parse (before ++ (new ++ after)) = ofWords mnemonic s ∧
        s.nextWord.1 = some ⟨new, Text.size before⟩ := by
  obtain ⟨hcomment, first, s, hfirst, hwords⟩ := parse_eq_operation_iff.1 h
  obtain ⟨-, -, -, hend, -, -⟩ := Scanner.exists_passed_of_nextWord hfirst
  obtain ⟨horigin, hfinish, ⟨-, rfl, hsecond, -⟩ | ⟨hlabel, -⟩⟩ :=
    ofWords_eq_operation_iff.1 hwords
  · obtain ⟨t, hnext⟩ : ∃ t, s.nextWord = (some ⟨old, Text.size before⟩, t) :=
      ⟨_, Prod.ext hsecond rfl⟩
    obtain ⟨blanks, hb, hold, hend', hrest, hstart, -⟩ := Scanner.nextWord_eq_some_iff.1 hnext
    dsimp only at hold hrest hstart
    rw [hrest] at hend
    have hnew : Scanner.nextWord ⟨s.position, blanks ++ (new ++ t.rest)⟩ =
        (some ⟨new, Text.size before⟩, ⟨Text.size before + Text.size new, t.rest⟩) :=
      Scanner.nextWord_eq_some_iff.2 ⟨blanks, hb, hword hold, hend', rfl, hstart, rfl⟩
    exact ⟨horigin, hfinish, _, parse_of_exchange hcomment hfirst hrest
      (hend.ne_nil hold.isTrimmed) hstart.symm hsemicolon rfl, congrArg Prod.fst hnew⟩
  · cases hlabel

/-- Behind a label what is left of the line is the operand, whatever instruction it makes. -/
theorem parse_exchange_behind_label {l : Field}
    (h : parse (before ++ (old ++ after)) =
      operation (some l) mnemonic (some ⟨old, Text.size before⟩))
    (htrim : Text.IsTrimmed new) (hsemicolon : ';' ∉ new) :
    parse (before ++ (new ++ after)) =
      operation (some l) mnemonic (some ⟨new, Text.size before⟩) := by
  obtain ⟨hcomment, first, s, hfirst, hwords⟩ := parse_eq_operation_iff.1 h
  obtain ⟨horigin, hfinish, ⟨hlabel, -⟩ | ⟨hlabel, hsecond, hnone, hm, hoperand⟩⟩ :=
    ofWords_eq_operation_iff.1 hwords
  · cases hlabel
  · obtain ⟨t, hnext⟩ : ∃ t, s.nextWord = (some mnemonic, t) := ⟨_, Prod.ext hsecond rfl⟩
    rw [hnext] at hoperand
    obtain ⟨passed, hpassed, hposition, hend', ⟨c, hc, -⟩, hagain⟩ :=
      Scanner.exists_passed_of_nextWord hnext
    obtain ⟨blanks, trail, hb, htrail, hold, hrest, hstart⟩ :=
      Scanner.remainder_eq_some_iff.1 hoperand
    dsimp only at hold hrest hstart
    rw [hrest] at hend' hpassed
    have hnew : Scanner.nextWord ⟨s.position, (passed ++ blanks) ++ (new ++ trail)⟩ =
        (some mnemonic, ⟨t.position, blanks ++ (new ++ trail)⟩) := by
      rw [List.append_assoc]
      exact hagain _ (hend'.exchange (hend'.ne_nil hold) _)
    have hrest' : s.rest = (passed ++ blanks) ++ (old ++ trail) := by
      rw [hpassed, List.append_assoc]
    have hne : passed ++ blanks ≠ [] := List.ne_nil_of_mem (List.mem_append_left _ hc)
    have hsize : s.position + Text.size (passed ++ blanks) = Text.size before := by
      rw [Text.size_append]
      omega
    refine parse_of_exchange hcomment hfirst hrest' hne hsize hsemicolon
      (ofWords_eq_operation_iff.2 ⟨horigin, hfinish, .inr ⟨hlabel, ?_, hnone, hm, ?_⟩⟩)
    · rw [hnew]
    · rw [hnew]
      exact Scanner.remainder_eq_some_iff.2 ⟨blanks, trail, hb, htrail, htrim, rfl, hstart⟩

/-- **Another operand in the same place** leaves all else of a statement as it is, if it makes an
instruction exactly where the old one does. -/
theorem parse_exchange
    (h : parse (before ++ (old ++ after)) =
      operation label mnemonic (some ⟨old, Text.size before⟩))
    (htrim : Text.IsTrimmed new) (hword : Text.IsWord old → Text.IsWord new)
    (hsemicolon : ';' ∉ new)
    (hexists : (instructionOf mnemonic (some ⟨new, Text.size before⟩)).isSome =
      (instructionOf mnemonic (some ⟨old, Text.size before⟩)).isSome) :
    parse (before ++ (new ++ after)) = operation label mnemonic (some ⟨new, Text.size before⟩) := by
  cases label with
  | some l => exact parse_exchange_behind_label h htrim hsemicolon
  | none =>
    obtain ⟨-, _, _, -, hwords⟩ := parse_eq_operation_iff.1 h
    obtain ⟨-, -, ⟨-, rfl, -, hsome⟩ | ⟨hlabel, -⟩⟩ := ofWords_eq_operation_iff.1 hwords
    · obtain ⟨horigin, hfinish, s, hparse, hsecond⟩ := exists_scanner_exchange h hword hsemicolon
      rw [hparse]
      exact ofWords_eq_operation_iff.2
        ⟨horigin, hfinish, .inl ⟨rfl, rfl, hsecond, by rwa [hexists]⟩⟩
    · cases hlabel

end Statement

end Mc6800
