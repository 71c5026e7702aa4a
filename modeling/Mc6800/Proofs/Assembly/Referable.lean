import Mc6800.Proofs.Assembly.Encoding
import Mc6800.Proofs.Assembly.References
import Mc6800.Proofs.Source.Layout

/-!
# Labels that can be referred to

Any word may be defined as a label, but the shape of an operand is decided before labels are looked
up. A jump and a load by the absolute address of a label are assembled behind a source exactly if
the label has the shape of an address, an integer or a name (`assemble_append_references`). With
any other shape there is no such jump (`Instruction.mode_of_find?_jmp`).
-/

set_option autoImplicit false

namespace Mc6800

/-! ## Words in either case -/

theorem Text.isWord_upper_iff {t : Text} : IsWord (upper t) ↔ IsWord t := by
  simp only [IsWord, upper, ne_eq, List.map_eq_nil_iff, List.forall_mem_map, isBlank_toUpper]

/-- Words that are the same up to case are words without a semicolon together. -/
theorem Text.isWord_of_sameWord {s t : Text} (h : sameWord s t = true) (hs : IsWord s)
    (hcode : ';' ∉ s) : IsWord t ∧ ';' ∉ t := by
  have hupper : upper s = upper t := beq_iff_eq.1 h
  rw [← isWord_upper_iff, hupper, isWord_upper_iff] at hs
  rw [← mem_upper_iff (by decide), hupper, mem_upper_iff (by decide)] at hcode
  exact ⟨hs, hcode⟩

/-! ## Labels -/

namespace Statement

theorem eq_of_label?_ofWords {first f : Field} {s : Scanner}
    (h : (ofWords first s).label? = some f) : f = first := by
  unfold ofWords at h
  dsimp only at h
  split at h
  · cases h
  split at h
  · cases h
  split at h
  · cases h
  split at h
  · cases h
    rfl
  · split at h
    · cases h
      rfl
    · cases h
      rfl

theorem mem_fields_of_label? {s : Statement} {f : Field} (h : s.label? = some f) :
    f ∈ s.fields := by
  cases s with
  | empty | origin _ _ => cases h
  | finish l => exact Option.mem_toList.2 h
  | label name => exact List.mem_singleton.2 (Option.some.inj h).symm
  | operation l _ _ => exact List.mem_append_left _ (Option.mem_toList.2 h)

/-- A label is the first word of the code of its line. -/
theorem isWord_of_label? {line : Text} {f : Field} (h : (parse line).label? = some f) :
    Text.IsWord f.text ∧ ';' ∉ f.text := by
  refine ⟨?_, semicolon_not_mem_of_mem_fields (mem_fields_of_label? h)⟩
  unfold parse at h
  split at h
  · cases h
  · unfold ofCode at h
    split at h
    · cases h
    · next first s hfirst =>
      obtain rfl := eq_of_label?_ofWords h
      obtain ⟨blanks, -, hword, -⟩ := Scanner.nextWord_eq_some_iff.1 hfirst
      exact hword

end Statement

/-- Whatever is in the label table is a word without a semicolon. -/
theorem Assembler.isWord_of_get?_labels {lines : List Text} {base : Word} {name : Text}
    {address : Word}
    (h : ((ofLines lines).withOrigin base).firstPass.labels.get? name = some address) :
    Text.IsWord name ∧ ';' ∉ name := by
  have hlabels := Survey.get?_labels base (lines.map Statement.parse) name address
    (lines.map Statement.parse).length
  rw [List.take_length] at hlabels
  obtain ⟨i, ⟨⟨s, hs, hdefines⟩, -⟩, -⟩ := hlabels h
  obtain ⟨line, -, rfl⟩ := List.mem_map.1 (List.mem_of_getElem? hs)
  obtain ⟨f, hf, hname⟩ := (Option.any_eq_true ..).1 hdefines
  obtain ⟨hword, hcode⟩ := Statement.isWord_of_label? hf
  exact Text.isWord_of_sameWord hname hword hcode

/-! ## Shapes -/

namespace Operand

/-- Whether an operand has the shape of an address or of a branch target. -/
def isReference (t : Text) : Bool := isAddress t || isInteger t || isName t

/-- What an operand with the shape of an address or of a branch target may begin with and hold. -/
theorem not_mem_of_isReference {t : Text} (h : isReference t = true) :
    t.head? ≠ some Literal.immediateMarker ∧ ',' ∉ t := by
  have hname : ∀ {u : Text}, (∀ c ∈ u, isNameChar c = true) →
      u.head? ≠ some Literal.immediateMarker ∧ ',' ∉ u := by
    intro u hu
    refine ⟨fun hhead => ?_, (not_mem_of_isNameChar hu).1⟩
    exact absurd (hu _ (List.mem_of_head? hhead)) (by decide)
  have hdigits : ∀ {radix : Text.Radix} {u : Text}, (Text.readDigits? radix u).isSome = true →
      ∀ c ∈ u, isNameChar c = true := by
    intro radix u hu
    obtain ⟨n, hn⟩ := Option.isSome_iff_exists.1 hu
    exact isNameChar_of_readDigits? hn
  simp only [isReference, Bool.or_eq_true] at h
  rcases h with (h | h) | h
  · unfold isAddress at h
    split at h
    · next digits =>
      have hcomma := (hname (hdigits (Bool.and_eq_true_iff.1 h).2)).2
      exact ⟨by simp [Literal.immediateMarker], by simp [hcomma]⟩
    · exact hname (hdigits (Bool.and_eq_true_iff.1 h).2)
  · cases t with
    | nil => exact hname (by simp)
    | cons c rest =>
      rw [isInteger, Text.dropMarker] at h
      split at h
      · next hc =>
        have hcomma := (hname (hdigits h)).2
        subst hc
        exact ⟨by simp [Literal.immediateMarker], by simp [hcomma]⟩
      · exact hname (hdigits h)
  · exact hname (isNameChar_of_isName h)

/-- The shape of a word is that of an address or of a branch target exactly if it is meant so. -/
theorem isReference_iff {t : Text} (ht : Text.IsWord t) :
    isReference t = true ↔
      Mode.ofOperand (some t) = .relative ∨ Mode.ofOperand (some t) = .extended := by
  have htrim : Text.trim t = t := Text.trim_of_isTrimmed ht.isTrimmed
  unfold Mode.ofOperand
  rw [Option.getD_some, htrim]
  cases t with
  | nil => exact absurd rfl ht.1
  | cons c rest =>
    dsimp only
    constructor
    · intro h
      obtain ⟨hmarker, hcomma⟩ := not_mem_of_isReference h
      have hmarker : c ≠ Literal.immediateMarker := fun hc => hmarker (by rw [hc]; rfl)
      rw [if_neg hmarker, dropIndex?_of_not_mem hcomma]
      simp only [isReference, Bool.or_assoc, Bool.or_eq_true] at h
      by_cases haddress : isAddress (c :: rest) = true
      · simp [haddress]
      · simp [haddress, h.resolve_left haddress]
    · intro h
      split at h
      · split at h
        · split at h <;> simp at h
        · simp at h
      split at h
      · simp at h
      split at h
      · next haddress => simp [isReference, haddress]
      split at h
      · next hname =>
        rw [isReference, Bool.or_assoc, hname, Bool.or_true]
      · simp at h

end Operand

/-! ## Lines with a mnemonic and an operand -/

/-- A line with an instruction and no label. -/
def instructionLine (m : Mnemonic) (operand : Text) : Text :=
  ' ' :: ' ' :: (m.name ++ ' ' :: operand)

namespace Statement

variable {m : Mnemonic} {o : Text}

/-- A mnemonic is a word that begins no comment and is no directive. -/
theorem name_spec (m : Mnemonic) :
    Text.IsWord m.name ∧ ';' ∉ m.name ∧ isComment m.name = false ∧
      (⟨m.name, 2⟩ : Field).is "ORG" = false ∧ isFinish ⟨m.name, 2⟩ = false := by
  have h : ∀ m ∈ Mnemonic.all, Text.IsWord m.name ∧ ';' ∉ m.name ∧
      isComment m.name = false ∧ (⟨m.name, 2⟩ : Field).is "ORG" = false ∧
      isFinish ⟨m.name, 2⟩ = false := by
    decide +kernel
  exact h m m.mem_all

/-- The first two words of the line are the mnemonic and the operand. -/
theorem parse_instructionLine (m : Mnemonic) (ho : Text.IsWord o) (hcode : ';' ∉ o) :
    ∃ s start, parse (instructionLine m o) = ofWords ⟨m.name, 2⟩ s ∧
      s.nextWord = (some ⟨o, start⟩, ⟨start + Text.size o, []⟩) := by
  obtain ⟨hname, hsemicolon, hcomment, -, -⟩ := name_spec m
  have hlead : Text.AllBlank [' ', ' '] := by decide
  have hgap : Text.IsGap [' '] := by decide
  have hline : instructionLine m o = [' ', ' '] ++ (m.name ++ ([' '] ++ o)) := rfl
  have hhead : isComment (instructionLine m o) = false := by
    rw [hline, isComment_behind_word hname _ [], List.append_nil,
      isComment_congr (congrArg List.head? (Text.trimStart_append hlead m.name)), hcomment]
  refine ⟨⟨2 + Text.size m.name, [' '] ++ codePart o⟩, 2 + Text.size m.name + 1, ?_, ?_⟩
  · rw [parse, hhead, ofCode, hline, nextWord_codePart hlead hname hsemicolon hgap]
    rfl
  · rw [codePart_eq_self hcode]
    exact Scanner.nextWord_eq_some_iff.2
      ⟨[' '], hgap.2, ho, by simp [Text.EndsWord], by simp, rfl, rfl⟩

/-- A mnemonic that exists with an operand of this shape makes an instruction. -/
theorem parse_instructionLine_of_find? {i : Instruction} (ho : Text.IsWord o) (hcode : ';' ∉ o)
    (hi : Instruction.find? m.name (Mode.ofOperand (some o)) = some i) :
    ∃ start, parse (instructionLine m o) = operation none ⟨m.name, 2⟩ (some ⟨o, start⟩) := by
  obtain ⟨-, -, -, horigin, hfinish⟩ := name_spec m
  obtain ⟨s, start, hparse, hsecond⟩ := parse_instructionLine m ho hcode
  have hsome : (instructionOf ⟨m.name, 2⟩ (some ⟨o, start⟩)).isSome = true :=
    Option.isSome_iff_exists.2 ⟨i, hi⟩
  refine ⟨start, ?_⟩
  rw [hparse]
  exact ofWords_eq_operation_iff.2
    ⟨horigin, hfinish, .inl ⟨rfl, rfl, congrArg Prod.fst hsecond, hsome⟩⟩

/-- A mnemonic that does not is taken for a label, and what is left makes one byte at most. -/
theorem length_code_instructionLine (ho : Text.IsWord o) (hcode : ';' ∉ o)
    (hi : Instruction.find? m.name (Mode.ofOperand (some o)) = none) (labels : LabelTable)
    (location : Word) :
    ((parse (instructionLine m o)).outcome labels location).code.length ≤ 1 := by
  obtain ⟨-, -, -, horigin, hfinish⟩ := name_spec m
  obtain ⟨s, start, hparse, hsecond⟩ := parse_instructionLine m ho hcode
  have hnone : instructionOf ⟨m.name, 2⟩ (some ⟨o, start⟩) = none := hi
  have hrest :
      Scanner.remainder ⟨start + Text.size o, []⟩ = (none, ⟨start + Text.size o, []⟩) := rfl
  rw [hparse, ofWords, horigin, hfinish, hsecond]
  simp only [Bool.false_eq_true, if_false, hnone, Option.isSome_none, hrest]
  split
  · exact Nat.zero_le _
  · cases hi : instructionOf ⟨o, start⟩ none with
    | none =>
      have hi' : (operation (some ⟨m.name, 2⟩) ⟨o, start⟩ none).instruction? = none := hi
      simp only [outcome, hi', LineOutcome.code, List.length_nil, Nat.zero_le]
    | some i =>
      rw [outcome_operation hi, Instruction.encode_of_inherent (mode_of_instructionOf_none hi)]
      exact Nat.le_refl 1

end Statement

/-! ## Jumps and loads -/

namespace Instruction

theorem mode_of_find?_jmp {shape : Mode} (h : find? Mnemonic.jmp.name shape ≠ none) :
    shape = .relative ∨ shape = .extended := by
  have hall : ∀ shape ∈ Mode.all, find? Mnemonic.jmp.name shape ≠ none →
      shape = .relative ∨ shape = .extended := by
    decide +kernel
  exact hall shape shape.mem_all h

theorem find?_extended (word : Text) {shape : Mode} (h : shape = .relative ∨ shape = .extended) :
    find? word shape = find? word .extended := by
  rcases h with rfl | rfl
  · exact find?_relative word
  · rfl

end Instruction

namespace Statement

variable {m : Mnemonic} {o : Text} {opcode : Byte}

/-- With an absolute address the instruction is found, and the word of its mnemonic is no label. -/
theorem parse_instructionLine_of_isReference (ho : Text.IsWord o) (hcode : ';' ∉ o)
    (hshape : Operand.isReference o = true)
    (hi : Instruction.find? m.name .extended = some ⟨m, .extended, opcode⟩) :
    ∃ start, parse (instructionLine m o) = operation none ⟨m.name, 2⟩ (some ⟨o, start⟩) ∧
      instructionOf ⟨m.name, 2⟩ (some ⟨o, start⟩) = some ⟨m, .extended, opcode⟩ := by
  rw [← Instruction.find?_extended _ ((Operand.isReference_iff ho).1 hshape)] at hi
  obtain ⟨start, hparse⟩ := parse_instructionLine_of_find? ho hcode hi
  exact ⟨start, hparse, hi⟩

/-- An instruction with the absolute address of a label has the two bytes of that address. -/
theorem outcome_instructionLine {labels : LabelTable} {address : Word} (ho : Text.IsWord o)
    (hcode : ';' ∉ o) (hshape : Operand.isReference o = true)
    (hi : Instruction.find? m.name .extended = some ⟨m, .extended, opcode⟩)
    (haddress : labels.get? o = some address) (location : Word) :
    (parse (instructionLine m o)).outcome labels location =
      .bytes [opcode, address.high, address.low] := by
  obtain ⟨start, hparse, hi'⟩ := parse_instructionLine_of_isReference ho hcode hshape hi
  have hvalue : labels.operandValue? Mode.extended o = some (address.toNat : Int) :=
    LabelTable.resolve?_of_get? haddress
  have hencode := Instruction.encode_of_accepts (i := ⟨m, .extended, opcode⟩) hvalue
    (Mode.accepts_extended location address)
  rw [hparse, outcome_operation_of_isTrimmed hi' ho.isTrimmed, hencode, Mode.bytes,
    Word.ofInt_toNat]
  rfl

end Statement

/-! ## Lines behind a source -/

namespace Assembler

theorem get?_labels_append (base : Word) (lines more : List Text) (name : Text)
    (h : ∀ line ∈ more, (Statement.parse line).label? = none) :
    ((ofLines (lines ++ more)).withOrigin base).firstPass.labels.get? name =
      ((ofLines lines).withOrigin base).firstPass.labels.get? name := by
  have hnone : ∀ s ∈ more.map Statement.parse, s.defines name = false := by
    intro s hs
    obtain ⟨line, hline, rfl⟩ := List.mem_map.1 hs
    rw [Statement.defines, h line hline]
    rfl
  have hfold :=
    Survey.get?_labels_foldl (Survey.ofStatements base (lines.map Statement.parse)) hnone
  rw [Survey.ofStatements, ← List.foldl_append, ← List.map_append] at hfold
  exact hfold

theorem drop_lines_append (base : Word) (lines more : List Text) :
    let a := (ofLines (lines ++ more)).withOrigin base
    ∃ e, a.assemble.lines.drop lines.length =
      (Emission.run a.firstPass.labels e (more.map Statement.parse)).1 := by
  intro a
  have hrun : a.assemble.lines = (Emission.run a.firstPass.labels (.start base)
      (lines.map Statement.parse ++ more.map Statement.parse)).1 := by
    rw [← List.map_append]
    rfl
  refine ⟨Emission.behind a.firstPass.labels (.start base) (lines.map Statement.parse), ?_⟩
  rw [hrun, Emission.run_append]
  exact List.drop_left' (by rw [Emission.length_run, List.length_map])

end Assembler

theorem instructionLine_jmp (o : Text) : "  JMP " ++ o = instructionLine .jmp o := rfl

theorem instructionLine_ldaa (o : Text) : "  LDAA " ++ o = instructionLine .ldaa o := rfl

theorem find?_jmp_extended :
    Instruction.find? Mnemonic.jmp.name .extended = some ⟨.jmp, .extended, 0x7E⟩ := by
  decide +kernel

theorem find?_ldaa_extended :
    Instruction.find? Mnemonic.ldaa.name .extended = some ⟨.ldaa, .extended, 0xB6⟩ := by
  decide +kernel

/-- **Which labels can be referred to.** Behind a source a jump to a label of the source and a load
from it are assembled to their opcodes and the two bytes of the label's address exactly if the label
has the shape of an address, an integer or a name. -/
theorem assemble_append_references (base : Word) (lines : List Text) {name : Text} {address : Word}
    (h : ((Assembler.ofLines lines).withOrigin base).firstPass.labels.get? name = some address) :
    let a := ((Assembler.ofLines (lines ++ ["  JMP " ++ name, "  LDAA " ++ name])).withOrigin
      base).assemble
    (a.lines.drop lines.length).map PlacedLine.outcome =
        [.bytes [0x7E, address.high, address.low], .bytes [0xB6, address.high, address.low]] ↔
      Operand.isReference name = true := by
  obtain ⟨hword, hcode⟩ := Assembler.isWord_of_get?_labels h
  rw [instructionLine_jmp, instructionLine_ldaa]
  intro a
  obtain ⟨e, hdrop⟩ :=
    Assembler.drop_lines_append base lines [instructionLine .jmp name, instructionLine .ldaa name]
  rw [show a.lines.drop lines.length = _ from hdrop]
  constructor
  · intro houtcome
    -- Without a jump of this shape the first of the two lines has one byte at most.
    by_contra hshape
    have hnone : Instruction.find? Mnemonic.jmp.name (Mode.ofOperand (some name)) = none := by
      by_contra hfind
      exact hshape ((Operand.isReference_iff hword).2 (Instruction.mode_of_find?_jmp hfind))
    have hjump : (Statement.parse (instructionLine .jmp name)).outcome _ e.location = _ :=
      (List.cons.inj houtcome).1
    have hshort := Statement.length_code_instructionLine hword hcode hnone
      ((Assembler.ofLines
        (lines ++ [instructionLine .jmp name, instructionLine .ldaa name])).withOrigin
          base).firstPass.labels e.location
    rw [hjump] at hshort
    simp [LineOutcome.code] at hshort
  · intro hshape
    have hlabel : ∀ line ∈ [instructionLine .jmp name, instructionLine .ldaa name],
        (Statement.parse line).label? = none := by
      obtain ⟨_, hjump, -⟩ := Statement.parse_instructionLine_of_isReference hword hcode hshape
        find?_jmp_extended
      obtain ⟨_, hload, -⟩ := Statement.parse_instructionLine_of_isReference hword hcode hshape
        find?_ldaa_extended
      simp only [List.forall_mem_cons, List.not_mem_nil, false_imp_iff, implies_true, and_true,
        hjump, hload]
      exact ⟨rfl, rfl⟩
    have haddress := (Assembler.get?_labels_append base lines _ name hlabel).trans h
    have hjump :=
      Statement.outcome_instructionLine hword hcode hshape find?_jmp_extended haddress
    have hload :=
      Statement.outcome_instructionLine hword hcode hshape find?_ldaa_extended haddress
    simp only [List.map_cons, List.map_nil, Emission.run] at hjump hload ⊢
    rw [hjump, hload]

/-- A label that is a name, in either case. -/
theorem assemble_append_references_name :
    let lines : List Text := ["NOP", "LOOP_2 INCA"]
    let name : Text := "loop_2"
    let a := ((Assembler.ofLines (lines ++ ["  JMP " ++ name, "  LDAA " ++ name])).withOrigin
      0xC000).assemble
    ((Assembler.ofLines lines).withOrigin 0xC000).firstPass.labels.get? name = some 0xC001 ∧
      (a.lines.drop 2).map PlacedLine.outcome =
        [.bytes [0x7E, 0xC0, 0x01], .bytes [0xB6, 0xC0, 0x01]] := by
  intro lines name a
  have h : ((Assembler.ofLines lines).withOrigin 0xC000).firstPass.labels.get? name =
      some 0xC001 := by
    decide +kernel
  exact ⟨h, (assemble_append_references 0xC000 lines h).2 (by decide +kernel)⟩

/-- A label with a hyphen has the shape of a direct address: there is no such jump, and the load
keeps the low byte of the label's address only. -/
theorem assemble_append_references_hyphen :
    let lines : List Text := ["A-B NOP"]
    let name : Text := "A-B"
    let a := ((Assembler.ofLines (lines ++ ["  JMP " ++ name, "  LDAA " ++ name])).withOrigin
      0xC000).assemble
    ((Assembler.ofLines lines).withOrigin 0xC000).firstPass.labels.get? name = some 0xC000 ∧
      (a.lines.drop 1).map PlacedLine.outcome ≠
        [.bytes [0x7E, 0xC0, 0x00], .bytes [0xB6, 0xC0, 0x00]] ∧
      (a.lines.drop 1).map PlacedLine.outcome =
        [.fault (.invalidInstruction "A-B") ⟨6, 3⟩, .bytes [0x96, 0x00]] := by
  decide +kernel

end Mc6800
