import Mc6800.Proofs.Assembly.Containment
import Mc6800.Proofs.Assembly.Encoding
import Mc6800.Proofs.Operand.Hexadecimal

/-!
# Either marker of hexadecimal literals in a source

With the marker `0x` in the place of `$` an operand makes the same instruction with the same code
(`Statement.outcome_respelled`), unless it is an absolute address: with `0x` that is read as a
direct one, so the instruction is shorter or does not exist (`Statement.sizeOf_respelled_le`). Both
passes then tell the two lines apart (`assemble_with_other_marker`).
-/

set_option autoImplicit false

namespace Mc6800

/-! ## Instructions -/

namespace Instruction

variable {word : Text}

/-- Whatever has a direct form has an absolute one. -/
theorem find_direct_eq_none {m : Mnemonic} (h : find m .extended = none) :
    find m .direct = none := by
  have hall : ∀ m ∈ Mnemonic.all, find m .extended = none → find m .direct = none := by
    decide +kernel
  exact hall m m.mem_all h

/-- Without an absolute form an address is a branch target, in whatever digits. -/
theorem find?_direct (h : (find? word .extended).map mode ≠ some .extended) :
    find? word .direct = find? word .extended := by
  unfold find? at h ⊢
  cases hm : Mnemonic.ofWord? word with
  | none => rfl
  | some m =>
    rw [hm] at h
    cases hfind : find m .extended with
    | none => simp [Mode.readings, List.findSome?_cons, hfind, find_direct_eq_none hfind]
    | some i => simp [Mode.readings, hfind, mode_of_find hfind] at h

/-- A numeral is no mnemonic. -/
theorem find?_zero (t : Text) (shape : Mode) : find? ('0' :: t) shape = none := by
  have hhead : ∀ m ∈ Mnemonic.all, m.name.head? ≠ some '0' := by decide +kernel
  have hword : Mnemonic.ofWord? ('0' :: t) = none := by
    rw [Mnemonic.ofWord?, List.find?_eq_none]
    intro m hm hname
    exact hhead m hm (by rw [beq_iff_eq.1 hname]; rfl)
  rw [find?, hword]

end Instruction

/-! ## Statements -/

/-- Operands with either marker have the same value wherever they are no labels. -/
theorem LabelTable.operandValue?_respelled {labels : LabelTable} {s t : Text} (mode : Mode)
    (h : Literal.Respelled s t) (hs : labels.get? (Operand.core mode s) = none)
    (ht : labels.get? (Operand.core mode t) = none) :
    labels.operandValue? mode t = labels.operandValue? mode s := by
  have hcore := Operand.respelled_core mode h
  have hresolve :
      labels.resolve? (Operand.core mode t) = labels.resolve? (Operand.core mode s) := by
    rw [resolve?, resolve?, hs, ht, hcore.value?]
  obtain ⟨hsne, htne⟩ := hcore.ne_nil
  unfold operandValue?
  generalize Operand.core mode s = x at *
  generalize Operand.core mode t = y at *
  cases mode with
  | inherent => rfl
  | indexed =>
    obtain ⟨c, rest, rfl⟩ := List.exists_cons_of_ne_nil hsne
    obtain ⟨d, more, rfl⟩ := List.exists_cons_of_ne_nil htne
    exact hresolve
  | immediate | immediate16 | direct | extended | relative => exact hresolve

namespace Statement

variable {l : Option Field} {m f g : Field} {labels : LabelTable} {before after : Text}

/-- Whatever instruction an operand makes, the same text of it is looked up among the labels. -/
theorem core_eq_subject {i : Instruction} (hi : instructionOf m (some f) = some i) :
    Operand.core i.mode f.text = Operand.subject f.text :=
  Operand.core_of_mem_readings (Instruction.mode_mem_readings hi) f.text

/-- An operand with the marker `0x` makes the instruction that it makes with `$`, unless that has an
absolute address. -/
theorem instructionOf_respelled (hf : f.text = before ++ '$' :: after)
    (hg : g.text = before ++ '0' :: 'x' :: after)
    (hplace : ∀ c ∈ before.getLast?, Operand.isNameChar c = false)
    (htrim : Text.IsTrimmed f.text)
    (hmode : (instructionOf m (some f)).map Instruction.mode ≠ some .extended) :
    instructionOf m (some g) = instructionOf m (some f) := by
  rw [hf] at htrim
  simp only [instructionOf, Option.map_some, hf, hg, Mode.ofOperand_respelled hplace htrim]
    at hmode ⊢
  split
  · next hshape =>
    rw [hshape] at hmode ⊢
    exact Instruction.find?_direct hmode
  · rfl

/-- The same instruction has the same code with either marker. -/
theorem outcome_respelled (hsame : instructionOf m (some g) = instructionOf m (some f))
    (h : Literal.Respelled f.text g.text) (htrim : Text.IsTrimmed f.text)
    (hfree : labels.get? (Operand.subject f.text) = none)
    (hfree' : labels.get? (Operand.subject g.text) = none) (location : Word) :
    ((operation l m (some g)).outcome labels location).code =
        ((operation l m (some f)).outcome labels location).code ∧
      ((operation l m (some g)).outcome labels location).isFault =
        ((operation l m (some f)).outcome labels location).isFault := by
  refine outcome_congr hsame htrim (h.isTrimmed htrim) (fun i hi => ?_) location
  rw [← core_eq_subject hi] at hfree
  rw [← core_eq_subject (hsame.trans hi)] at hfree'
  exact LabelTable.operandValue?_respelled i.mode h hfree hfree'

/-! ### Absolute addresses -/

/-- With the marker `$` an absolute address is `$` and four digits. -/
theorem exists_spells_of_extended (hmem : '$' ∈ f.text) (htrim : Text.IsTrimmed f.text)
    (hmode : (instructionOf m (some f)).map Instruction.mode = some .extended) :
    ∃ address, Operand.Spells f.text address := by
  obtain ⟨i, hi, hmode⟩ := Option.map_eq_some_iff.1 hmode
  have hreading : i.mode ∈ (Mode.ofOperand (some f.text)).readings :=
    Instruction.mode_mem_readings hi
  refine Operand.exists_spells_of_isAddress hmem (Mode.isAddress_of_ofOperand htrim hmem ?_)
  rw [hmode] at hreading
  generalize Mode.ofOperand (some f.text) = shape at hreading ⊢
  cases shape <;> simp [Mode.readings] at hreading ⊢

/-- With an absolute address an instruction has three bytes. -/
theorem length_code_of_spells {address : Word} (hspells : Operand.Spells f.text address)
    (hfree : labels.get? f.text = none)
    (hmode : (instructionOf m (some f)).map Instruction.mode = some .extended) (location : Word) :
    ((operation l m (some f)).outcome labels location).code.length = 3 := by
  obtain ⟨i, hi, hmode⟩ := Option.map_eq_some_iff.1 hmode
  have hvalue : labels.operandValue? i.mode f.text = some (address.toNat : Int) := by
    rw [hmode]
    show labels.resolve? f.text = _
    rw [LabelTable.resolve?, hfree]
    exact hspells.value?
  have haccepts : i.mode.Accepts location (address.toNat : Int) :=
    hmode ▸ Mode.accepts_extended location address
  have hencode := Instruction.encode_of_accepts hvalue haccepts
  rw [outcome_operation_of_isTrimmed hi hspells.isWord.isTrimmed, hencode, hmode]
  rfl

theorem sizeOf_operation_le {o : Option Field} {n : Nat} (hn : 1 ≤ n)
    (h : ∀ i, instructionOf m o = some i → i.length ≤ n) :
    Survey.sizeOf (operation l m o) ≤ n := by
  have hinstruction : (operation l m o).instruction? = instructionOf m o := rfl
  rw [Survey.sizeOf, hinstruction]
  cases hi : instructionOf m o with
  | none => exact hn
  | some i => exact h i hi

/-- With the marker `0x` in the place of `$` a line with an absolute address has at most two bytes.
Where the mnemonic has no direct form, it is a label in front of a numeral. -/
theorem sizeOf_respelled_le {lead tail digits : Text} {address : Word}
    (h : parse (lead ++ ('$' :: digits ++ tail)) =
      operation l m (some ⟨'$' :: digits, Text.size lead⟩))
    (hspells : Operand.Spells ('$' :: digits) address) :
    Survey.sizeOf (parse (lead ++ ('0' :: 'x' :: digits ++ tail))) ≤ 2 := by
  have hrespelled : Literal.Respelled ('$' :: digits) ('0' :: 'x' :: digits) :=
    ⟨[], digits, rfl, rfl⟩
  have hshape : Mode.ofOperand (some ('0' :: 'x' :: digits)) = .direct := by
    have hplace : ∀ c ∈ ([] : Text).getLast?, Operand.isNameChar c = false := by simp
    have hdirect := Mode.ofOperand_respelled hplace hspells.isWord.isTrimmed
    rwa [List.nil_append, List.nil_append, hspells.ofOperand, if_pos rfl] at hdirect
  have hlength : ∀ i, instructionOf m (some ⟨'0' :: 'x' :: digits, Text.size lead⟩) = some i →
      i.length ≤ 2 := by
    intro i hi
    have hreading : i.mode ∈ (Mode.ofOperand (some ('0' :: 'x' :: digits))).readings :=
      Instruction.mode_mem_readings hi
    rw [hshape] at hreading
    rw [Instruction.length]
    generalize i.mode = mode at hreading
    cases mode <;> simp [Mode.readings, Mode.length] at hreading ⊢
  have hsemicolon := hrespelled.semicolon_not_mem hspells.not_mem.2
  have hword := hrespelled.isWord hspells.isWord
  cases l with
  | some name =>
    rw [parse_exchange_behind_label h hword.isTrimmed hsemicolon]
    exact sizeOf_operation_le (by omega) hlength
  | none =>
    obtain ⟨horigin, hfinish, s, hparse, hsecond⟩ :=
      exists_scanner_exchange h (fun _ => hword) hsemicolon
    rw [hparse, ofWords, horigin, hfinish, show s.nextWord = (_, s.nextWord.2) from
      Prod.ext hsecond rfl]
    simp only [Bool.false_eq_true, if_false]
    split
    · exact sizeOf_operation_le (by omega) hlength
    split
    · exact Nat.zero_le 2
    · refine sizeOf_operation_le (by omega) fun i hi => ?_
      rw [instructionOf, Instruction.find?_zero] at hi
      cases hi

end Statement

/-! ## Sources -/

/-- The address and the code of every line. -/
def Assembly.placedCode (a : Assembly) : List (Word × List Byte) :=
  a.lines.map fun l => (l.address, l.outcome.code)

namespace Assembler

variable {l : Option Field} {m : Field} {lead old new tail digits : Text}

/-- Where two assemblies have the same code, it has one length. -/
theorem length_code_eq {a b : Assembler} {i : Nat} {s t : Statement}
    (hs : a.statements[i]? = some s) (ht : b.statements[i]? = some t)
    (h : b.assemble.placedCode = a.assemble.placedCode) :
    ∃ location location', (t.outcome b.firstPass.labels location').code.length =
      (s.outcome a.firstPass.labels location).code.length := by
  have hline := congrArg (·[i]?) h
  simp only [Assembly.placedCode, List.getElem?_map, a.getElem?_assemble hs,
    b.getElem?_assemble ht, Option.map_some, Option.some.injEq, Prod.mk.injEq] at hline
  exact ⟨_, _, congrArg List.length hline.2⟩

theorem getElem?_statements (base : Word) (front rest : List Text) (line : Text) :
    ((ofLines (front ++ line :: rest)).withOrigin base).statements[front.length]? =
      some (Statement.parse line) := by
  show ((front ++ line :: rest).map Statement.parse)[front.length]? = _
  simp

/-- A line that makes the same instruction with either marker may be written with either. -/
theorem assemble_respelled (base : Word) (front rest : List Text)
    (h : Statement.parse (lead ++ (old ++ tail)) =
      .operation l m (some ⟨old, Text.size lead⟩))
    (hrespelled : Literal.Respelled old new)
    (hsame : Statement.instructionOf m (some ⟨new, Text.size lead⟩) =
      Statement.instructionOf m (some ⟨old, Text.size lead⟩))
    (hfree : ((ofLines (front ++ (lead ++ (old ++ tail)) :: rest)).withOrigin
      base).firstPass.labels.get? (Operand.subject old) = none)
    (hfree' : ((ofLines (front ++ (lead ++ (old ++ tail)) :: rest)).withOrigin
      base).firstPass.labels.get? (Operand.subject new) = none) :
    let x := ((ofLines (front ++ (lead ++ (old ++ tail)) :: rest)).withOrigin base).assemble
    let y := ((ofLines (front ++ (lead ++ (new ++ tail)) :: rest)).withOrigin base).assemble
    y.labels = x.labels ∧ y.placedCode = x.placedCode := by
  intro x y
  have hfield : ⟨old, Text.size lead⟩ ∈ (Statement.parse (lead ++ (old ++ tail))).fields := by
    simp [h, Statement.fields]
  have hsemicolon := Statement.semicolon_not_mem_of_mem_fields hfield
  have htrim := (Statement.isIn_of_mem_fields _ hfield).trimmed
  have hparse := Statement.parse_exchange h (hrespelled.isTrimmed htrim) hrespelled.isWord
    (hrespelled.semicolon_not_mem hsemicolon) (congrArg Option.isSome hsame)
  simp only [x, y, withOrigin_ofLines, List.map_append, List.map_cons, h, hparse]
    at hfree hfree' ⊢
  have houtcome := Statement.outcome_respelled (l := l) hsame hrespelled htrim hfree hfree'
  have hsize : Survey.sizeOf (.operation l m (some ⟨new, Text.size lead⟩)) =
      Survey.sizeOf (.operation l m (some ⟨old, Text.size lead⟩)) := by
    simp only [Survey.sizeOf, Statement.instruction?, hsame]
  obtain ⟨hlabels, -, hlines⟩ := assemble_exchange base (front.map Statement.parse)
    (rest.map Statement.parse) (s := .operation l m (some ⟨old, Text.size lead⟩))
    (t := .operation l m (some ⟨new, Text.size lead⟩)) rfl rfl hsize houtcome
  have hpairs := congrArg (List.map fun l : Word × List Byte × Bool => (l.1, l.2.1)) hlines
  rw [List.map_map, List.map_map] at hpairs
  exact ⟨hlabels, hpairs⟩

/-- A line with an absolute address has three bytes with `$` and at most two with `0x`. -/
theorem placedCode_respelled_ne (base : Word) (front rest : List Text) {address : Word}
    (h : Statement.parse (lead ++ ('$' :: digits ++ tail)) =
      .operation l m (some ⟨'$' :: digits, Text.size lead⟩))
    (hspells : Operand.Spells ('$' :: digits) address)
    (hmode : (Statement.instructionOf m (some ⟨'$' :: digits, Text.size lead⟩)).map
      Instruction.mode = some .extended)
    (hfree : ((ofLines (front ++ (lead ++ ('$' :: digits ++ tail)) :: rest)).withOrigin
      base).firstPass.labels.get? ('$' :: digits) = none) :
    let x := ((ofLines (front ++ (lead ++ ('$' :: digits ++ tail)) :: rest)).withOrigin
      base).assemble
    let y := ((ofLines (front ++ (lead ++ ('0' :: 'x' :: digits ++ tail)) :: rest)).withOrigin
      base).assemble
    y.placedCode ≠ x.placedCode := by
  intro x y hplaced
  obtain ⟨location, location', hlength⟩ := length_code_eq
    (getElem?_statements base front rest (lead ++ ('$' :: digits ++ tail)))
    (getElem?_statements base front rest (lead ++ ('0' :: 'x' :: digits ++ tail))) hplaced
  have hshort := Statement.sizeOf_respelled_le h hspells
  rw [h, Statement.length_code_of_spells hspells hfree hmode, Statement.length_code_outcome]
    at hlength
  split at hlength
  · omega
  · omega

end Assembler

/-- **The two markers of hexadecimal literals.** Wherever a marker `$` stands in an operand, alone,
behind an immediate marker or a sign or in front of an index register, but not inside a name, `0x`
may stand in its place if what is looked up is no label with either marker: the labels and every
line's address and code are the same exactly if the instruction has no absolute address. -/
theorem assemble_with_other_marker (base : Word) (front rest : List Text) {line : Text}
    {label : Option Field} {mnemonic operand : Field} {before after : Text}
    (hline : Statement.parse line = .operation label mnemonic (some operand))
    (hoperand : operand.text = before ++ '$' :: after)
    (hplace : ∀ c ∈ before.getLast?, Operand.isNameChar c = false)
    (hfree : ((Assembler.ofLines (front ++ line :: rest)).withOrigin base).firstPass.labels.get?
      (Operand.subject operand.text) = none)
    (hfree' : ((Assembler.ofLines (front ++ line :: rest)).withOrigin base).firstPass.labels.get?
      (Operand.subject (before ++ '0' :: 'x' :: after)) = none) :
    ∃ lead tail, line = lead ++ (operand.text ++ tail) ∧ operand.start = Text.size lead ∧
      let x := ((Assembler.ofLines (front ++ line :: rest)).withOrigin base).assemble
      let y := ((Assembler.ofLines (front ++
        (lead ++ (before ++ '0' :: 'x' :: after ++ tail)) :: rest)).withOrigin base).assemble
      (y.labels = x.labels ∧ y.placedCode = x.placedCode) ↔
        (Statement.parse line).instruction?.map Instruction.mode ≠ some .extended := by
  have hfield : operand ∈ (Statement.parse line).fields := by simp [hline, Statement.fields]
  obtain ⟨⟨lead, tail, hlead, hstart⟩, htrim⟩ := Statement.isIn_of_mem_fields operand hfield
  obtain ⟨text, start⟩ := operand
  dsimp only at hoperand hfree hlead hstart htrim
  rw [List.append_assoc] at hlead
  subst hoperand hstart hlead
  refine ⟨lead, tail, rfl, rfl, ?_⟩
  intro x y
  have hinstruction : (Statement.parse (lead ++ (before ++ '$' :: after ++ tail))).instruction? =
      Statement.instructionOf mnemonic (some ⟨before ++ '$' :: after, Text.size lead⟩) := by
    rw [hline]
    rfl
  rw [hinstruction]
  constructor
  · rintro ⟨-, hplaced⟩ hmode
    obtain ⟨address, hspells⟩ := Statement.exists_spells_of_extended (by simp) htrim hmode
    rw [Operand.subject_of_spells hspells] at hfree
    obtain rfl := Operand.eq_nil_of_spells hspells
    exact Assembler.placedCode_respelled_ne base front rest hline hspells hmode hfree hplaced
  · intro hmode
    exact Assembler.assemble_respelled base front rest hline ⟨before, after, rfl, rfl⟩
      (Statement.instructionOf_respelled rfl rfl hplace htrim hmode) hfree hfree'

/-- An offset to the index register in a line with a label and a comment. -/
theorem assemble_with_other_marker_indexed :
    let x := ((Assembler.ofLines ["NOP", "NEXT LDAA $1F,X ; table", "BRA NEXT"]).withOrigin
      0x1000).assemble
    let y := ((Assembler.ofLines ["NOP", "NEXT LDAA 0x1F,X ; table", "BRA NEXT"]).withOrigin
      0x1000).assemble
    Operand.subject "$1F,X" = "$1F" ∧ x.labels.get? "$1F" = none ∧
      Operand.subject "0x1F,X" = "0x1F" ∧ x.labels.get? "0x1F" = none ∧
      y.labels = x.labels ∧ y.placedCode = x.placedCode := by
  have hline : Statement.parse "NEXT LDAA $1F,X ; table" =
      .operation (some ⟨"NEXT", 0⟩) ⟨"LDAA", 5⟩ (some ⟨"$1F,X", 10⟩) := by decide +kernel
  have hfree : ((Assembler.ofLines ["NOP", "NEXT LDAA $1F,X ; table", "BRA NEXT"]).withOrigin
      0x1000).firstPass.labels.get? (Operand.subject "$1F,X") = none := by decide +kernel
  have hfree' : ((Assembler.ofLines ["NOP", "NEXT LDAA $1F,X ; table", "BRA NEXT"]).withOrigin
      0x1000).firstPass.labels.get? (Operand.subject "0x1F,X") = none := by decide +kernel
  have hoperand : ("$1F,X" : Text) = ([] : Text) ++ '$' :: ("1F,X" : Text) := rfl
  obtain ⟨lead, tail, hplace, hstart, hsame⟩ :=
    assemble_with_other_marker 0x1000 ["NOP"] ["BRA NEXT"] hline hoperand (by simp) hfree hfree'
  have hplace : ("NEXT LDAA " : Text) ++ ("$1F,X" ++ " ; table") = lead ++ ("$1F,X" ++ tail) :=
    hplace
  obtain ⟨rfl, htail⟩ := Text.append_inj_of_size hplace hstart
  obtain rfl := List.append_cancel_left htail
  refine ⟨by decide +kernel, by decide +kernel, by decide +kernel, by decide +kernel,
    hsame.2 ?_⟩
  rw [hline]
  decide +kernel

/-- With `0x` in the place of `$` an absolute address becomes a direct one. -/
theorem assemble_with_other_marker_absolute :
    let x := ((Assembler.ofLines ["LDAA $1234"]).withOrigin 0xC000).assemble
    let y := ((Assembler.ofLines ["LDAA 0x1234"]).withOrigin 0xC000).assemble
    x.labels.get? "$1234" = none ∧ x.labels.get? "0x1234" = none ∧
      x.lines = [⟨0xC000, .bytes [0xB6, 0x12, 0x34]⟩] ∧ y.lines = [⟨0xC000, .bytes [0x96, 0x34]⟩] ∧
      y.placedCode ≠ x.placedCode := by
  decide +kernel

end Mc6800
