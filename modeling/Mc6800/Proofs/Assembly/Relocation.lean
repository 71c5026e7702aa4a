import Mc6800.Proofs.Assembly.Counters

/-!
# Relocation

A source that moves nowhere, in which branches name labels and nothing else does
(`IsRelocatable`), keeps its code under another base, and its labels and lines move by the
difference of the bases. There is one exception. The counters wrap around at the end of the address
space and the distance of a branch does not, so a branch that reaches its label only around that
end is refused (`Statement.IsCutOff`). Two bases agree on all lines exactly when they cut off the
same branches, and always where the source ends before the address space does
(`assemble_withOrigin`).
-/

set_option autoImplicit false

namespace Mc6800

/-! ## Moved labels -/

namespace LabelTable

/-- The labels with all addresses moved. -/
def shift (δ : Word) (table : LabelTable) : LabelTable :=
  ⟨table.entries.map fun entry => (entry.1, entry.2 + δ)⟩

theorem find_map_add (δ : Word) (key : Text) (entries : List (Text × Word)) :
    find key (entries.map fun entry => (entry.1, entry.2 + δ)) =
      (find key entries).map (· + δ) := by
  induction entries with
  | nil => rfl
  | cons entry rest ih => grind [find]

theorem put_map_add (δ : Word) (key : Text) (address : Word) (entries : List (Text × Word)) :
    put key (address + δ) (entries.map fun entry => (entry.1, entry.2 + δ)) =
      (put key address entries).map fun entry => (entry.1, entry.2 + δ) := by
  induction entries with
  | nil => rfl
  | cons entry rest ih => grind [put]

theorem get?_shift (δ : Word) (table : LabelTable) (label : Text) :
    (table.shift δ).get? label = (table.get? label).map (· + δ) :=
  find_map_add ..

theorem insert_shift (δ : Word) (table : LabelTable) (label : Text) (address : Word) :
    (table.shift δ).insert label (address + δ) = (table.insert label address).shift δ := by
  rw [insert, insert, shift, shift, put_map_add]

theorem resolve?_shift {table : LabelTable} {t : Text} (h : table.get? t = none) (δ : Word) :
    (table.shift δ).resolve? t = table.resolve? t := by
  rw [resolve?, resolve?, get?_shift, h, Option.map_none]

theorem operandValue?_congr {labels moved : LabelTable} {mode : Mode} {operand : Text}
    (h : mode = .inherent ∨ moved.resolve? (Operand.core mode operand) =
      labels.resolve? (Operand.core mode operand)) :
    moved.operandValue? mode operand = labels.operandValue? mode operand := by
  rcases h with rfl | h
  · rfl
  · unfold operandValue?
    split <;> simp_all

end LabelTable

/-! ## The reach of a branch -/

/-- The distance from the end of a branch at `location` to its target, taken around the end of the
address space where that is shorter. -/
def wrappedDistance (location target : Word) : Int :=
  Word.signed (target - (location + UInt16.ofNat Mode.relative.length))

/-- Whether a target is in reach of a branch only around the end of the address space. -/
def IsCutOff (location target : Word) : Prop :=
  InReach (wrappedDistance location target) ∧ ¬InReach (branchDistance location target.toNat)

instance (location target : Word) : Decidable (IsCutOff location target) :=
  inferInstanceAs (Decidable (_ ∧ _))

theorem wrappedDistance_add (location target δ : Word) :
    wrappedDistance (location + δ) (target + δ) = wrappedDistance location target := by
  have h : target + δ - (location + δ + UInt16.ofNat Mode.relative.length) =
      target - (location + UInt16.ofNat Mode.relative.length) := by grind
  rw [wrappedDistance, wrappedDistance, h]

theorem wrappedDistance_eq_of_inReach {location target : Word}
    (h : InReach (branchDistance location target.toNat)) :
    wrappedDistance location target = branchDistance location target.toNat := by
  have hlocation : location.toNat < 65536 := location.toNat_lt
  have htarget : target.toNat < 65536 := target.toNat_lt
  simp only [InReach, branchDistance_toNat, Mode.length] at h
  simp only [wrappedDistance, branchDistance_toNat, Word.signed, Mode.length, UInt16.toNat_sub,
    UInt16.toNat_add, UInt16.toNat_ofNat']
  split <;> omega

/-- Two places of a branch and its target agree on cutting it off exactly when they agree on its
reach. -/
theorem isCutOff_add_iff (location target δ : Word) :
    (IsCutOff location target ↔ IsCutOff (location + δ) (target + δ)) ↔
      (InReach (branchDistance location target.toNat) ↔
        InReach (branchDistance (location + δ) (target + δ).toNat)) := by
  have h : InReach (branchDistance location target.toNat) →
      InReach (wrappedDistance location target) := by
    intro hreach
    rwa [wrappedDistance_eq_of_inReach hreach]
  have h' : InReach (branchDistance (location + δ) (target + δ).toNat) →
      InReach (wrappedDistance location target) := by
    intro hreach
    rwa [← wrappedDistance_add location target δ, wrappedDistance_eq_of_inReach hreach]
  rw [IsCutOff, IsCutOff, wrappedDistance_add]
  by_cases hw : InReach (wrappedDistance location target)
  · simp only [hw, true_and, not_iff_not]
  · simp only [hw, false_and, mt h hw, mt h' hw]

theorem Word.toNat_add_ofNat {base : Word} {k : Nat} (h : base.toNat + k < 65536) :
    (base + UInt16.ofNat k).toNat = base.toNat + k := by
  rw [UInt16.toNat_add, UInt16.toNat_ofNat']
  omega

theorem branchDistance_of_lt {base : Word} {k m : Nat} (hk : base.toNat + k < 65536)
    (hm : base.toNat + m < 65536) :
    branchDistance (base + UInt16.ofNat k) (base + UInt16.ofNat m).toNat =
      (m : Int) - (k + Mode.relative.length) := by
  rw [branchDistance_toNat, Word.toNat_add_ofNat hk, Word.toNat_add_ofNat hm]
  omega

/-! ## Relocatable sources -/

namespace Statement

/-- The mode of a statement's instruction and the text that is resolved to its value. -/
def reference? : Statement → Option (Mode × Text)
  | operation _ mnemonic operand =>
    (instructionOf mnemonic operand).map fun i =>
      (i.mode, Operand.core i.mode (Text.trim ((operand.map Field.text).getD [])))
  | _ => none

/-- Whether a statement moves nowhere, and names a label if it is a branch and none if it is
anything else. A branch to a name that is not defined counts as one to a label. -/
def isRelocatable (isLabel : Text → Bool) (s : Statement) : Bool :=
  s.target?.isNone &&
    match s.reference? with
    | none | some (.inherent, _) => true
    | some (.relative, t) => isLabel t || (Literal.value? t).isNone
    | some (_, t) => !isLabel t

/-- The address that a branch goes to. -/
def branchTarget? (labels : LabelTable) (s : Statement) : Option Word :=
  match s.reference? with
  | some (.relative, t) => labels.get? t
  | _ => none

/-- Whether a statement is a branch that reaches its label only around the end of the address
space. -/
def IsCutOff (labels : LabelTable) (location : Word) (s : Statement) : Prop :=
  ∃ target ∈ s.branchTarget? labels, Mc6800.IsCutOff location target

end Statement

/-- Whether branches are the only statements of a source that depend on where it is placed. -/
def isRelocatable (statements : List Statement) : Bool :=
  statements.all fun s => s.isRelocatable fun t => statements.any fun d => d.defines t

/-! ## Outcomes -/

/-- Whether two outcomes are the same code, or faults of the same kind that blame the same piece of
the line. -/
def LineOutcome.Alike : LineOutcome → LineOutcome → Prop
  | .fault f span, .fault g span' => f.code = g.code ∧ f.token = g.token ∧ span = span'
  | o, p => o = p

@[simp] theorem LineOutcome.Alike.refl (o : LineOutcome) : o.Alike o := by
  cases o <;> simp [Alike]

theorem LineOutcome.Alike.code_eq {o p : LineOutcome} (h : o.Alike p) : o.code = p.code := by
  cases o with
  | fault _ _ =>
    cases p with
    | fault _ _ => rfl
    | empty | bytes _ => cases h
  | empty | bytes _ =>
    cases p with
    | fault _ _ => cases h
    | empty | bytes _ => rw [h]

/-! ## One statement -/

namespace Instruction

variable {i : Instruction} {labels moved : LabelTable} {operand : Text} {location : Word}

theorem encode_congr (hmode : i.mode ≠ .relative)
    (h : moved.operandValue? i.mode operand = labels.operandValue? i.mode operand)
    (location location' : Word) :
    i.encode moved operand location' = i.encode labels operand location := by
  rw [encode_eq, encode_eq, h]
  cases hi : i.mode with
  | relative => exact absurd hi hmode
  | inherent | immediate | immediate16 | direct | indexed | extended => rfl

/-- A branch to a label carries the distance to it, and is refused where that is out of reach. -/
theorem encode_of_relative {target : Word} (hmode : i.mode = .relative)
    (htarget : labels.get? operand = some target) :
    i.encode labels operand location =
      if InReach (branchDistance location target.toNat) then
        .ok [i.opcode, UInt8.ofInt (wrappedDistance location target)]
      else .error (.branchOutOfRange operand (branchDistance location target.toNat)) := by
  have hvalue : labels.operandValue? .relative operand = some (target.toNat : Int) :=
    LabelTable.resolve?_of_get? htarget
  rw [encode_eq, hmode, hvalue]
  by_cases hreach : InReach (branchDistance location target.toNat)
  · rw [if_pos hreach, wrappedDistance_eq_of_inReach hreach]
    exact if_pos hreach
  · rw [if_neg hreach]
    exact if_neg hreach

end Instruction

namespace Statement

variable {labels : LabelTable} {location δ : Word} {s : Statement}

theorem outcome_of_reference?_eq_none (h : s.reference? = none) (labels labels' : LabelTable)
    (location location' : Word) : s.outcome labels location = s.outcome labels' location' := by
  cases s with
  | empty | finish _ | label _ | origin _ _ => rfl
  | operation l m o =>
    have hi : (operation l m o).instruction? = none := Option.map_eq_none_iff.1 h
    simp only [outcome, hi]

/-- What becomes of a statement with a reference is decided by the encoding of its operand. -/
theorem exists_of_reference? {mode : Mode} {t : Text} (h : s.reference? = some (mode, t)) :
    ∃ (i : Instruction) (operand : Text) (span : Span),
      i.mode = mode ∧ Operand.core mode operand = t ∧
      ∀ labels location,
        s.outcome labels location = .ofEncoding span (i.encode labels operand location) := by
  cases s with
  | empty | finish _ | label _ | origin _ _ => cases h
  | operation l m o =>
    obtain ⟨i, hi, hreference⟩ := Option.map_eq_some_iff.1 h
    cases hreference
    exact ⟨i, _, _, rfl, rfl, outcome_operation hi l⟩

/-- A statement that is no branch to a label has the same outcome wherever it is placed. -/
theorem outcome_shift (h : s.isRelocatable (fun t => (labels.get? t).isSome) = true)
    (hbranch : s.branchTarget? labels = none) (δ location location' : Word) :
    s.outcome (labels.shift δ) location' = s.outcome labels location := by
  cases hr : s.reference? with
  | none => exact outcome_of_reference?_eq_none hr ..
  | some r =>
    obtain ⟨mode, t⟩ := r
    obtain ⟨i, operand, span, rfl, rfl, houtcome⟩ := exists_of_reference? hr
    have hkind := (Bool.and_eq_true_iff.1 h).2
    simp only [branchTarget?, hr] at hbranch
    rw [hr] at hkind
    suffices hencode : i.encode (labels.shift δ) operand location' =
        i.encode labels operand location by
      rw [houtcome, houtcome, hencode]
    by_cases hmode : i.mode = .relative
    · -- A branch to a name that is not defined.
      simp only [hmode, Operand.core] at hbranch hkind
      have hnone : labels.resolve? operand = none := by
        simpa [LabelTable.resolve?, hbranch] using hkind
      have hvalue : labels.operandValue? .relative operand = none := hnone
      have hvalue' : (labels.shift δ).operandValue? .relative operand = none := by
        rw [← hnone, ← LabelTable.resolve?_shift hbranch δ]
        rfl
      simp only [Instruction.encode, hmode, hvalue, hvalue']
    · refine Instruction.encode_congr hmode (LabelTable.operandValue?_congr ?_) _ _
      by_cases hinherent : i.mode = .inherent
      · exact .inl hinherent
      · refine .inr (LabelTable.resolve?_shift ?_ δ)
        cases hi : i.mode with
        | relative => exact absurd hi hmode
        | inherent => exact absurd hi hinherent
        | immediate | immediate16 | direct | indexed | extended => simpa [hi] using hkind

/-- A branch to a label has alike outcomes wherever it is placed together with the label, if it is
cut off from the label in both places or in neither. -/
theorem alike_outcome_iff_of_branch {target : Word} (htarget : s.branchTarget? labels = some target)
    (δ location : Word) :
    (s.outcome labels location).Alike (s.outcome (labels.shift δ) (location + δ)) ↔
      (Mc6800.IsCutOff location target ↔ Mc6800.IsCutOff (location + δ) (target + δ)) := by
  unfold branchTarget? at htarget
  split at htarget
  · next t hr =>
    obtain ⟨i, operand, span, hmode, rfl, houtcome⟩ := exists_of_reference? hr
    have htarget : labels.get? operand = some target := htarget
    have hmoved : (labels.shift δ).get? operand = some (target + δ) := by
      rw [LabelTable.get?_shift, htarget, Option.map_some]
    rw [houtcome, houtcome, Instruction.encode_of_relative hmode htarget,
      Instruction.encode_of_relative hmode hmoved, wrappedDistance_add, isCutOff_add_iff]
    by_cases h : InReach (branchDistance location target.toNat)
    · by_cases h' : InReach (branchDistance (location + δ) (target + δ).toNat)
      · simp only [h, h', if_true, LineOutcome.Alike.refl]
      · simp only [h, h', if_true, if_false, LineOutcome.ofEncoding, LineOutcome.Alike,
          reduceCtorEq, iff_false, not_true_eq_false]
    · by_cases h' : InReach (branchDistance (location + δ) (target + δ).toNat)
      · simp only [h, h', if_true, if_false, LineOutcome.ofEncoding, LineOutcome.Alike,
          reduceCtorEq, false_iff, not_true_eq_false]
      · rw [if_neg h, if_neg h']
        exact iff_of_true ⟨rfl, rfl, rfl⟩ (iff_of_false h h')
  · cases htarget

theorem exists_get?_of_branchTarget? {target : Word} (h : s.branchTarget? labels = some target) :
    ∃ name, labels.get? name = some target := by
  unfold branchTarget? at h
  split at h
  · exact ⟨_, h⟩
  · cases h

theorem branchTarget?_shift (δ : Word) (labels : LabelTable) (s : Statement) :
    s.branchTarget? (labels.shift δ) = (s.branchTarget? labels).map (· + δ) := by
  unfold branchTarget?
  split
  · exact LabelTable.get?_shift ..
  · rfl

/-- A statement that is placed elsewhere together with the labels has alike outcomes in both places
if both cut it off or neither does. -/
theorem alike_outcome_shift_iff (h : s.isRelocatable (fun t => (labels.get? t).isSome) = true)
    (δ location : Word) :
    (s.outcome labels location).Alike (s.outcome (labels.shift δ) (location + δ)) ↔
      (s.IsCutOff labels location ↔ s.IsCutOff (labels.shift δ) (location + δ)) := by
  unfold IsCutOff
  rw [branchTarget?_shift]
  cases htarget : s.branchTarget? labels with
  | none => simp [outcome_shift h htarget δ location (location + δ)]
  | some target => simpa using alike_outcome_iff_of_branch htarget δ location

end Statement

/-! ## The first pass -/

namespace Survey

variable {statements : List Statement}

/-- The bytes that the first pass leaves for statements. -/
def totalSize : List Statement → Nat
  | [] => 0
  | s :: rest => sizeOf s + totalSize rest

theorem totalSize_append (s t : List Statement) :
    totalSize (s ++ t) = totalSize s + totalSize t := by
  induction s with
  | nil => simp [totalSize]
  | cons x rest ih => simp only [List.cons_append, totalSize, ih, Nat.add_assoc]

theorem totalSize_take_le (statements : List Statement) (i : Nat) :
    totalSize (statements.take i) ≤ totalSize statements := by
  have h := totalSize_append (statements.take i) (statements.drop i)
  rw [List.take_append_drop] at h
  omega

/-- The survey with all addresses moved. -/
def shift (δ : Word) (v : Survey) : Survey := ⟨v.location + δ, v.origin + δ, v.labels.shift δ⟩

theorem next_shift {s : Statement} (h : s.target? = none) (δ : Word) (v : Survey) :
    (v.shift δ).next s = (v.next s).shift δ := by
  have hlabels : define (v.labels.shift δ) s.label? (v.location + δ) =
      (define v.labels s.label? v.location).shift δ := by
    unfold define
    split
    · rfl
    · exact LabelTable.insert_shift ..
  have hlocation : v.location + δ + UInt16.ofNat (sizeOf s) =
      v.location + UInt16.ofNat (sizeOf s) + δ := by grind
  simp only [next, h, shift, hlabels, hlocation]

theorem ofStatements_add (h : ∀ s ∈ statements, s.target? = none) (base δ : Word) :
    ofStatements (base + δ) statements = (ofStatements base statements).shift δ := by
  suffices hfold : ∀ v, statements.foldl next (v.shift δ) = (statements.foldl next v).shift δ from
    hfold (start base)
  induction statements with
  | nil => exact fun _ => rfl
  | cons s rest ih =>
    obtain ⟨hs, hrest⟩ := List.forall_mem_cons.1 h
    intro v
    rw [List.foldl_cons, List.foldl_cons, next_shift hs, ih hrest]

theorem location_ofStatements (h : ∀ s ∈ statements, s.target? = none) (base : Word) :
    (ofStatements base statements).location = base + UInt16.ofNat (totalSize statements) := by
  suffices hfold : ∀ v, (statements.foldl next v).location =
      v.location + UInt16.ofNat (totalSize statements) from hfold (start base)
  induction statements with
  | nil => exact fun v => (UInt16.add_zero v.location).symm
  | cons s rest ih =>
    obtain ⟨hs, hrest⟩ := List.forall_mem_cons.1 h
    intro v
    have hsize : totalSize (s :: rest) = sizeOf s + totalSize rest := rfl
    rw [List.foldl_cons, ih hrest, hsize, UInt16.ofNat_add, next, hs]
    exact UInt16.add_assoc ..

theorem isSome_get?_labels (base : Word) (statements : List Statement) (name : Text) :
    ((ofStatements base statements).labels.get? name).isSome =
      statements.any fun d => d.defines name := by
  suffices hfold : ∀ v, ((statements.foldl next v).labels.get? name).isSome =
      ((v.labels.get? name).isSome || statements.any fun d => d.defines name) from
    hfold (start base)
  induction statements with
  | nil => simp
  | cons s rest ih =>
    intro v
    rw [List.foldl_cons, ih, labels_next, get?_define, List.any_cons]
    cases s.defines name <;> simp

/-- A label lies no further behind the base than the source is long. -/
theorem exists_le_of_get?_labels (h : ∀ s ∈ statements, s.target? = none) {base address : Word}
    {name : Text} (hname : (ofStatements base statements).labels.get? name = some address) :
    ∃ k ≤ totalSize statements, address = base + UInt16.ofNat k := by
  rw [← List.take_length (l := statements)] at hname
  obtain ⟨i, -, hi⟩ := get?_labels base statements name address _ hname
  refine ⟨_, totalSize_take_le statements i, ?_⟩
  rw [← hi, location_ofStatements fun s hs => h s (List.mem_of_mem_take hs)]

end Survey

/-! ## The second pass -/

namespace Assembler

variable {a : Assembler} {b₁ b₂ : Word}

theorem target?_eq_none (h : isRelocatable a.statements = true) :
    ∀ s ∈ a.statements, s.target? = none := by
  intro s hs
  have := (Bool.and_eq_true_iff.1 (List.all_eq_true.1 h s hs)).1
  exact Option.isNone_iff_eq_none.1 this

theorem labels_withOrigin (h : isRelocatable a.statements = true) (b₁ b₂ : Word) :
    (a.withOrigin b₂).firstPass.labels = (a.withOrigin b₁).firstPass.labels.shift (b₂ - b₁) := by
  have hbase : b₁ + (b₂ - b₁) = b₂ := by grind
  have hadd := Survey.ofStatements_add (target?_eq_none h) b₁ (b₂ - b₁)
  rw [hbase] at hadd
  simp only [firstPass, withOrigin, hadd, Survey.shift]

theorem isRelocatable_of_mem (h : isRelocatable a.statements = true) (base : Word) {s : Statement}
    (hs : s ∈ a.statements) :
    s.isRelocatable (fun t => ((a.withOrigin base).firstPass.labels.get? t).isSome) = true := by
  have hlabels := Survey.isSome_get?_labels base a.statements
  simp only [firstPass, withOrigin, hlabels]
  exact List.all_eq_true.1 h s hs

/-- Whether line `i` is a branch that the assembler cuts off from its label. -/
def CutsOff (a : Assembler) (i : Nat) : Prop :=
  ∃ s l, a.statements[i]? = some s ∧ a.assemble.lines[i]? = some l ∧
    s.IsCutOff a.assemble.labels l.address

theorem cutsOff_iff {i : Nat} {s : Statement} (hs : a.statements[i]? = some s) :
    a.CutsOff i ↔ s.IsCutOff a.firstPass.labels (a.emissionAt i).location := by
  have hline := a.getElem?_assemble hs
  constructor
  · rintro ⟨t, l, ht, hl, hcut⟩
    cases hs.symm.trans ht
    cases hline.symm.trans hl
    exact hcut
  · exact fun hcut => ⟨s, _, hs, hline, hcut⟩

theorem alike_outcome_iff (h : isRelocatable a.statements = true) {i : Nat} {s : Statement}
    (hs : a.statements[i]? = some s)
    (hlocation : ((a.withOrigin b₂).emissionAt i).location =
      ((a.withOrigin b₁).emissionAt i).location + (b₂ - b₁)) :
    (s.outcome (a.withOrigin b₁).firstPass.labels ((a.withOrigin b₁).emissionAt i).location).Alike
        (s.outcome (a.withOrigin b₂).firstPass.labels ((a.withOrigin b₂).emissionAt i).location) ↔
      ((a.withOrigin b₁).CutsOff i ↔ (a.withOrigin b₂).CutsOff i) := by
  have hs₁ : (a.withOrigin b₁).statements[i]? = some s := hs
  have hs₂ : (a.withOrigin b₂).statements[i]? = some s := hs
  rw [cutsOff_iff hs₁, cutsOff_iff hs₂, hlocation, labels_withOrigin h b₁ b₂]
  exact Statement.alike_outcome_shift_iff
    (isRelocatable_of_mem h b₁ (List.mem_of_getElem? hs)) _ _

/-- Lines keep their distances up to the first branch that only one of the bases cuts off. -/
theorem location_withOrigin (h : isRelocatable a.statements = true) {i : Nat}
    (hi : i ≤ a.statements.length)
    (hcut : ∀ j < i, (a.withOrigin b₁).CutsOff j ↔ (a.withOrigin b₂).CutsOff j) :
    ((a.withOrigin b₂).emissionAt i).location =
      ((a.withOrigin b₁).emissionAt i).location + (b₂ - b₁) := by
  induction i with
  | zero =>
    show b₂ = b₁ + (b₂ - b₁)
    grind
  | succ i ih =>
    have hlocation := ih (by omega) fun j hj => hcut j (by omega)
    have hs : a.statements[i]? = some a.statements[i] := List.getElem?_eq_getElem (by omega)
    generalize a.statements[i] = s at hs
    have hs₁ : (a.withOrigin b₁).statements[i]? = some s := hs
    have hs₂ : (a.withOrigin b₂).statements[i]? = some s := hs
    have hcode := ((alike_outcome_iff h hs hlocation).2 (hcut i (by omega))).code_eq
    have htarget : s.target? = none := target?_eq_none h s (List.mem_of_getElem? hs)
    rw [emissionAt_succ hs₁, emissionAt_succ hs₂, Emission.next, Emission.next, htarget, ← hcode]
    dsimp only
    rw [hlocation]
    grind

/-- A line lies no further behind the base than the source is long. -/
theorem exists_le_location (h : ∀ s ∈ a.statements, s.target? = none) {i : Nat}
    (hi : i ≤ a.statements.length) :
    ∃ k ≤ Survey.totalSize (a.statements.take i),
      (a.emissionAt i).location = a.base + UInt16.ofNat k := by
  induction i with
  | zero => exact ⟨0, Nat.zero_le _, (UInt16.add_zero a.base).symm⟩
  | succ i ih =>
    obtain ⟨k, hk, hlocation⟩ := ih (by omega)
    have hs : a.statements[i]? = some a.statements[i] := List.getElem?_eq_getElem (by omega)
    generalize a.statements[i] = s at hs
    have hsize := Survey.sizeOf_eq a.firstPass.labels (a.emissionAt i).location s
    have htotal : Survey.totalSize (a.statements.take (i + 1)) =
        Survey.totalSize (a.statements.take i) + Survey.sizeOf s := by
      rw [List.take_add_one, hs, Option.toList_some, Survey.totalSize_append]
      rfl
    refine ⟨k + (s.outcome a.firstPass.labels (a.emissionAt i).location).code.length, by omega, ?_⟩
    rw [emissionAt_succ hs, Emission.next, h s (List.mem_of_getElem? hs)]
    dsimp only
    rw [hlocation, UInt16.ofNat_add, UInt16.add_assoc]

theorem not_cutsOff {i : Nat} (hi : a.statements.length ≤ i) : ¬a.CutsOff i := by
  rintro ⟨s, l, hs, -⟩
  rw [List.getElem?_eq_none hi] at hs
  cases hs

/-- Where nothing lies across the end of the address space, a branch is as far from its label under
both bases. -/
theorem cutsOff_withOrigin_iff (h : isRelocatable a.statements = true)
    (h₁ : b₁.toNat + Survey.totalSize a.statements < 65536)
    (h₂ : b₂.toNat + Survey.totalSize a.statements < 65536) {i : Nat}
    (hi : i < a.statements.length)
    (hlocation : ((a.withOrigin b₂).emissionAt i).location =
      ((a.withOrigin b₁).emissionAt i).location + (b₂ - b₁)) :
    (a.withOrigin b₁).CutsOff i ↔ (a.withOrigin b₂).CutsOff i := by
  have hnone := target?_eq_none h
  have hs : a.statements[i]? = some a.statements[i] := List.getElem?_eq_getElem hi
  generalize a.statements[i] = s at hs
  have hs₁ : (a.withOrigin b₁).statements[i]? = some s := hs
  have hs₂ : (a.withOrigin b₂).statements[i]? = some s := hs
  obtain ⟨k, hk, hplace⟩ := exists_le_location (a := a.withOrigin b₁) hnone (Nat.le_of_lt hi)
  have hplace : ((a.withOrigin b₁).emissionAt i).location = b₁ + UInt16.ofNat k := hplace
  have hk := Nat.le_trans hk (Survey.totalSize_take_le a.statements i)
  rw [cutsOff_iff hs₁, cutsOff_iff hs₂, hlocation, labels_withOrigin h b₁ b₂,
    Statement.IsCutOff, Statement.IsCutOff, Statement.branchTarget?_shift, hplace]
  cases htarget : s.branchTarget? (a.withOrigin b₁).firstPass.labels with
  | none => simp
  | some target =>
    obtain ⟨name, hname⟩ := Statement.exists_get?_of_branchTarget? htarget
    obtain ⟨m, hm, hlabel⟩ := Survey.exists_le_of_get?_labels hnone hname
    have hlabel : target = b₁ + UInt16.ofNat m := hlabel
    have hmove : ∀ n, b₁ + UInt16.ofNat n + (b₂ - b₁) = b₂ + UInt16.ofNat n := fun n => by grind
    have hcut := isCutOff_add_iff (b₁ + UInt16.ofNat k) (b₁ + UInt16.ofNat m) (b₂ - b₁)
    rw [hmove, hmove, branchDistance_of_lt (by omega) (by omega),
      branchDistance_of_lt (by omega) (by omega)] at hcut
    simpa [hlabel, hmove] using hcut

theorem forall_cutsOff_withOrigin_iff (h : isRelocatable a.statements = true)
    (h₁ : b₁.toNat + Survey.totalSize a.statements < 65536)
    (h₂ : b₂.toNat + Survey.totalSize a.statements < 65536) (i : Nat) :
    (a.withOrigin b₁).CutsOff i ↔ (a.withOrigin b₂).CutsOff i := by
  -- The lines above decide where the line is placed.
  induction i using Nat.strongRecOn with
  | ind i ih =>
    rcases Nat.lt_or_ge i a.statements.length with hi | hi
    · exact cutsOff_withOrigin_iff h h₁ h₂ hi (location_withOrigin h (Nat.le_of_lt hi) ih)
    · exact iff_of_false (not_cutsOff hi) (not_cutsOff hi)

end Assembler

/-! ## Both passes -/

/-- An assembly with everything moved by the same amount: the labels, and the lines with alike
outcomes. -/
structure Assembly.MovesBy (δ : Word) (x y : Assembly) : Prop where
  labels : y.labels = x.labels.shift δ
  length : y.lines.length = x.lines.length
  address : ∀ (i : Nat) (l m : PlacedLine), x.lines[i]? = some l → y.lines[i]? = some m →
    m.address = l.address + δ
  outcome : ∀ (i : Nat) (l m : PlacedLine), x.lines[i]? = some l → y.lines[i]? = some m →
    l.outcome.Alike m.outcome

theorem Assembler.movesBy_withOrigin_iff {a : Assembler} (h : isRelocatable a.statements = true)
    (b₁ b₂ : Word) :
    (a.withOrigin b₁).assemble.MovesBy (b₂ - b₁) (a.withOrigin b₂).assemble ↔
      ∀ i, (a.withOrigin b₁).CutsOff i ↔ (a.withOrigin b₂).CutsOff i := by
  have hline : ∀ (b : Word) {i : Nat} {s : Statement}, a.statements[i]? = some s →
      (a.withOrigin b).assemble.lines[i]? = some ⟨((a.withOrigin b).emissionAt i).location,
        s.outcome (a.withOrigin b).firstPass.labels ((a.withOrigin b).emissionAt i).location⟩ :=
    fun b _ _ hs => (a.withOrigin b).getElem?_assemble hs
  constructor
  · intro hmove i
    rcases Nat.lt_or_ge i a.statements.length with hi | hi
    · have hs : a.statements[i]? = some a.statements[i] := List.getElem?_eq_getElem hi
      exact (alike_outcome_iff h hs (hmove.address i _ _ (hline b₁ hs) (hline b₂ hs))).1
        (hmove.outcome i _ _ (hline b₁ hs) (hline b₂ hs))
    · exact iff_of_false (not_cutsOff hi) (not_cutsOff hi)
  · intro hcut
    have hplace : ∀ (i : Nat) (l m : PlacedLine), (a.withOrigin b₁).assemble.lines[i]? = some l →
        (a.withOrigin b₂).assemble.lines[i]? = some m →
        m.address = l.address + (b₂ - b₁) ∧ l.outcome.Alike m.outcome := by
      intro i l m hl hm
      have hi : i < a.statements.length := by
        have := (List.getElem?_eq_some_iff.1 hl).1
        rwa [length_assemble] at this
      have hs : a.statements[i]? = some a.statements[i] := List.getElem?_eq_getElem hi
      have hlocation := location_withOrigin h (Nat.le_of_lt hi) fun j _ => hcut j
      cases hl.symm.trans (hline b₁ hs)
      cases hm.symm.trans (hline b₂ hs)
      exact ⟨hlocation, (alike_outcome_iff h hs hlocation).2 (hcut i)⟩
    exact
      { labels := labels_withOrigin h b₁ b₂
        length := by rw [length_assemble, length_assemble]; rfl
        address := fun i l m hl hm => (hplace i l m hl hm).1
        outcome := fun i l m hl hm => (hplace i l m hl hm).2 }

/-- **A relocatable source moves with its base** exactly when both bases cut off the same branches,
and always if under both it ends before the address space does. The labels move in any case. -/
theorem assemble_withOrigin (lines : List Text) (b₁ b₂ : Word)
    (h : isRelocatable (lines.map Statement.parse) = true) :
    let a := (Assembler.ofLines lines).withOrigin b₁
    let b := (Assembler.ofLines lines).withOrigin b₂
    b.assemble.labels = a.assemble.labels.shift (b₂ - b₁) ∧
    (a.assemble.MovesBy (b₂ - b₁) b.assemble ↔ ∀ i, a.CutsOff i ↔ b.CutsOff i) ∧
    (b₁.toNat + Survey.totalSize a.statements < 65536 →
      b₂.toNat + Survey.totalSize a.statements < 65536 →
      a.assemble.MovesBy (b₂ - b₁) b.assemble) := by
  have h : isRelocatable (Assembler.ofLines lines).statements = true := h
  have hiff := Assembler.movesBy_withOrigin_iff h b₁ b₂
  exact ⟨Assembler.labels_withOrigin h b₁ b₂, hiff, fun h₁ h₂ =>
    hiff.2 (Assembler.forall_cutsOff_withOrigin_iff h h₁ h₂)⟩

/-- Low and high in memory the loop has the same code, and the branch to a name that is not defined
the same fault. -/
theorem assemble_withOrigin_loop :
    let lines : List Text := ["LOOP DECB", "BNE loop", "BRA AWAY", "LDAA #$05"]
    let a := (Assembler.ofLines lines).withOrigin 0x0100
    let b := (Assembler.ofLines lines).withOrigin 0xFFF0
    isRelocatable (lines.map Statement.parse) = true ∧
      b.assemble.labels = a.assemble.labels.shift 0xFEF0 ∧
      (a.assemble.MovesBy 0xFEF0 b.assemble ∧ ∀ i, a.CutsOff i ↔ b.CutsOff i) := by
  intro lines a b
  have h : isRelocatable (lines.map Statement.parse) = true := by decide +kernel
  obtain ⟨hlabels, hiff, hmove⟩ := assemble_withOrigin lines 0x0100 0xFFF0 h
  have hmove := hmove (by decide +kernel) (by decide +kernel)
  exact ⟨h, hlabels, hmove, hiff.1 hmove⟩

/-- A branch to the next line, which is the first of the address space: its distance is zero, but
the assembler does not take it around the end. -/
theorem assemble_withOrigin_around_end :
    let lines : List Text := ["BRA HERE", "HERE NOP"]
    let a := (Assembler.ofLines lines).withOrigin 0xC000
    let b := (Assembler.ofLines lines).withOrigin 0xFFFE
    isRelocatable (lines.map Statement.parse) = true ∧
      a.assemble.lines = [⟨0xC000, .bytes [0x20, 0x00]⟩, ⟨0xC002, .bytes [0x01]⟩] ∧
      b.assemble.lines = [⟨0xFFFE, .fault (.branchOutOfRange "HERE" (-65536)) ⟨4, 4⟩⟩,
        ⟨0xFFFE, .bytes [0x01]⟩] ∧
      ¬a.assemble.MovesBy (0xFFFE - 0xC000) b.assemble := by
  intro lines a b
  have ha : a.assemble.lines = [⟨0xC000, .bytes [0x20, 0x00]⟩, ⟨0xC002, .bytes [0x01]⟩] := by
    decide +kernel
  have hb : b.assemble.lines = [⟨0xFFFE, .fault (.branchOutOfRange "HERE" (-65536)) ⟨4, 4⟩⟩,
      ⟨0xFFFE, .bytes [0x01]⟩] := by decide +kernel
  refine ⟨by decide +kernel, ha, hb, fun hmove => ?_⟩
  have halike := hmove.outcome 0 _ _ (by rw [ha]; rfl) (by rw [hb]; rfl)
  cases halike

end Mc6800
