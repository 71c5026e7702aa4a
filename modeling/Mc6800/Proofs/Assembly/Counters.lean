import Mc6800.Proofs.Assembly.Outcome

/-!
# The counters of the two passes

Both passes count addresses over the same statements and go to the same origins. In front of a
line their counters differ by the bytes that the first pass has left, since the last readable
origin, for instructions of which the second pass made no code (`counters_agree`). Without such
lines they agree, so every label stands for the address of the last line that defines it.

`Emission.getElem?_run` opens the second pass at one line and `Survey.get?_labels` the table of the
first pass at one name; neither depends on the other pass.
-/

set_option autoImplicit false

namespace Mc6800

/-! ## The second pass at one line -/

namespace Emission

/-- What the second pass knows behind a list of statements. -/
def behind (labels : LabelTable) (e : Emission) (statements : List Statement) : Emission :=
  (run labels e statements).2

theorem run_append (labels : LabelTable) (e : Emission) (s t : List Statement) :
    run labels e (s ++ t) =
      ((run labels e s).1 ++ (run labels (behind labels e s) t).1,
        behind labels (behind labels e s) t) := by
  induction s generalizing e with
  | nil => rfl
  | cons x rest ih =>
    have h := ih (e.next x (x.outcome labels e.location))
    simp only [List.cons_append, run, behind] at h ⊢
    rw [h]

theorem behind_concat (labels : LabelTable) (e : Emission) (statements : List Statement)
    (s : Statement) :
    behind labels e (statements ++ [s]) =
      (behind labels e statements).next s
        (s.outcome labels (behind labels e statements).location) := by
  show (run labels e (statements ++ [s])).2 = _
  rw [run_append]
  rfl

/-- The second pass places a line at its counter behind the lines in front of it. -/
theorem getElem?_run (labels : LabelTable) (e : Emission) {statements : List Statement} {i : Nat}
    {s : Statement} (h : statements[i]? = some s) :
    (run labels e statements).1[i]? =
      some ⟨(behind labels e (statements.take i)).location,
        s.outcome labels (behind labels e (statements.take i)).location⟩ := by
  induction statements generalizing e i with
  | nil => simp at h
  | cons x rest ih =>
    cases i with
    | zero =>
      rw [List.getElem?_cons_zero, Option.some.injEq] at h
      subst h
      rfl
    | succ i =>
      rw [List.getElem?_cons_succ] at h
      exact ih (e.next x (x.outcome labels e.location)) h

end Emission

/-! ## The first pass at one name -/

/-- Statement `i` is the last one that defines this label. -/
def IsLastDefinition (statements : List Statement) (name : Text) (i : Nat) : Prop :=
  (∃ s, statements[i]? = some s ∧ s.defines name = true) ∧
    ∀ j t, i < j → statements[j]? = some t → t.defines name = false

namespace Survey

theorem ofStatements_concat (base : Word) (statements : List Statement) (s : Statement) :
    ofStatements base (statements ++ [s]) = (ofStatements base statements).next s := by
  simp [ofStatements]

@[simp] theorem labels_next (v : Survey) (s : Statement) :
    (v.next s).labels = define v.labels s.label? v.location := by
  unfold next
  cases s.target? <;> rfl

theorem define_congr {s t : Statement} (h : t.labelName? = s.labelName?) (labels : LabelTable)
    (location : Word) : define labels t.label? location = define labels s.label? location := by
  unfold Statement.labelName? at h
  cases hs : s.label? with
  | none =>
    rw [hs, Option.map_none, Option.map_eq_none_iff] at h
    rw [h]
  | some f =>
    rw [hs, Option.map_some] at h
    obtain ⟨g, hg, hname⟩ := Option.map_eq_some_iff.1 h
    simp only [hg, define, LabelTable.insert, hname]

theorem get?_define (labels : LabelTable) (s : Statement) (location : Word) (name : Text) :
    (define labels s.label? location).get? name =
      if s.defines name then some location else labels.get? name := by
  unfold define Statement.defines
  cases s.label? with
  | none => rfl
  | some f =>
    simp only [LabelTable.get?_insert, Option.any_some, Field.is, Text.sameWord, beq_iff_eq]
    simp only [eq_comm]

/-- Behind the first `n` statements a name stands for the location counter at the last of them that
defines it. -/
theorem get?_labels (base : Word) (statements : List Statement) (name : Text) (address : Word)
    (n : Nat) (h : (ofStatements base (statements.take n)).labels.get? name = some address) :
    ∃ i, IsLastDefinition (statements.take n) name i ∧
      (ofStatements base (statements.take i)).location = address := by
  -- On the number of statements: the table of `n + 1` of them is asked at the last one first.
  induction n with
  | zero => simp [ofStatements, start] at h
  | succ n ih =>
    rw [List.take_add_one] at h ⊢
    cases hs : statements[n]? with
    | none =>
      rw [hs, Option.toList_none, List.append_nil] at h
      rw [Option.toList_none, List.append_nil]
      exact ih h
    | some s =>
      have hn : n < statements.length := (List.getElem?_eq_some_iff.1 hs).1
      have hlen : (statements.take n).length = n := by rw [List.length_take]; omega
      have hlast : (statements.take n ++ [s])[n]? = some s := by
        rw [List.getElem?_append_right (by omega), hlen, Nat.sub_self]; rfl
      rw [hs, Option.toList_some, ofStatements_concat, labels_next, get?_define] at h
      rw [Option.toList_some]
      split at h
      · next hdef =>
        refine ⟨n, ⟨⟨s, hlast, hdef⟩, fun j t hj ht => ?_⟩, Option.some.inj h⟩
        have := (List.getElem?_eq_some_iff.1 ht).1
        simp only [List.length_append, hlen, List.length_singleton] at this
        omega
      · next hdef =>
        obtain ⟨i, ⟨⟨t, ht, hdt⟩, hafter⟩, haddr⟩ := ih h
        have hi := (List.getElem?_eq_some_iff.1 ht).1
        refine ⟨i, ⟨⟨t, ?_, hdt⟩, fun j u hj hu => ?_⟩, haddr⟩
        · rwa [List.getElem?_append_left hi]
        · rcases Nat.lt_or_ge j n with hjn | hjn
          · exact hafter j u hj (by rwa [List.getElem?_append_left (by omega)] at hu)
          · have := (List.getElem?_eq_some_iff.1 hu).1
            simp only [List.length_append, hlen, List.length_singleton] at this
            rw [show j = n by omega, hlast, Option.some.injEq] at hu
            rw [← hu]
            exact Bool.eq_false_iff.2 hdef

theorem get?_labels_foldl (v : Survey) {statements : List Statement} {name : Text}
    (h : ∀ s ∈ statements, s.defines name = false) :
    (statements.foldl next v).labels.get? name = v.labels.get? name := by
  induction statements generalizing v with
  | nil => rfl
  | cons s rest ih =>
    obtain ⟨hs, hrest⟩ := List.forall_mem_cons.1 h
    rw [List.foldl_cons, ih _ hrest, labels_next, get?_define, hs]
    rfl

/-- The last statement that defines a name gives it its location counter. -/
theorem get?_labels_of_isLastDefinition (base : Word) {statements : List Statement} {name : Text}
    {i : Nat} (h : IsLastDefinition statements name i) :
    (ofStatements base statements).labels.get? name =
      some (ofStatements base (statements.take i)).location := by
  obtain ⟨⟨s, hs, hdefines⟩, hafter⟩ := h
  have hsplit : statements = statements.take i ++ s :: statements.drop (i + 1) := by
    obtain ⟨hi, rfl⟩ := List.getElem?_eq_some_iff.1 hs
    rw [List.getElem_cons_drop, List.take_append_drop]
  have hrest : ∀ t ∈ statements.drop (i + 1), t.defines name = false := by
    intro t ht
    obtain ⟨j, hj⟩ := List.mem_iff_getElem?.1 ht
    rw [List.getElem?_drop] at hj
    exact hafter _ t (by omega) hj
  have hfold : ofStatements base statements =
      (statements.drop (i + 1)).foldl next ((ofStatements base (statements.take i)).next s) := by
    conv => lhs; rw [hsplit]
    rw [ofStatements, List.foldl_append, List.foldl_cons, ← ofStatements]
  rw [hfold, get?_labels_foldl _ hrest, labels_next, get?_define, hdefines, if_pos rfl]

end Survey

/-! ## The drift of the counters -/

/-- The lines behind the last one that moves assembly to another address. -/
def sinceOrigin (lines : List (Statement × PlacedLine)) : List (Statement × PlacedLine) :=
  (lines.reverse.takeWhile fun l => l.1.target?.isNone).reverse

/-- Whether a line asks for an instruction and became a fault. -/
def isFailedOperation (l : Statement × PlacedLine) : Bool :=
  l.1.isOperation && l.2.outcome.isFault

/-- The bytes that the first pass leaves for lines. -/
def surveyedSize : List (Statement × PlacedLine) → Nat
  | [] => 0
  | l :: rest => Survey.sizeOf l.1 + surveyedSize rest

/-- The bytes that the first pass has left, since the last origin, for instructions that failed. -/
def drift (lines : List (Statement × PlacedLine)) : Nat :=
  surveyedSize ((sinceOrigin lines).filter isFailedOperation)

theorem surveyedSize_append (s t : List (Statement × PlacedLine)) :
    surveyedSize (s ++ t) = surveyedSize s + surveyedSize t := by
  induction s with
  | nil => simp [surveyedSize]
  | cons l rest ih => simp only [List.cons_append, surveyedSize, ih, Nat.add_assoc]

theorem drift_concat_of_target {lines : List (Statement × PlacedLine)}
    {l : Statement × PlacedLine} {address : Word} (h : l.1.target? = some address) :
    drift (lines ++ [l]) = 0 := by
  simp [drift, sinceOrigin, h, surveyedSize]

theorem drift_concat {lines : List (Statement × PlacedLine)} {l : Statement × PlacedLine}
    (h : l.1.target? = none) :
    drift (lines ++ [l]) =
      drift lines + if isFailedOperation l then Survey.sizeOf l.1 else 0 := by
  have hsince : sinceOrigin (lines ++ [l]) = sinceOrigin lines ++ [l] := by
    simp [sinceOrigin, h]
  rw [drift, hsince, List.filter_append, surveyedSize_append, ← drift]
  cases hl : isFailedOperation l <;> simp [hl, surveyedSize]

theorem drift_eq_zero {lines : List (Statement × PlacedLine)}
    (h : ∀ l ∈ lines, isFailedOperation l = false) : drift lines = 0 := by
  have hnil : (sinceOrigin lines).filter isFailedOperation = [] := by
    refine List.filter_eq_nil_iff.2 fun l hl => ?_
    have hmem : l ∈ lines :=
      List.mem_reverse.1 (List.takeWhile_sublist _ |>.subset (List.mem_reverse.1 hl))
    simp [h l hmem]
  rw [drift, hnil, surveyedSize]

/-- The first pass leaves for a statement the bytes that the second pass makes of it, unless its
instruction fails. -/
theorem Survey.sizeOf_eq (labels : LabelTable) (location : Word) (s : Statement) :
    Survey.sizeOf s = (s.outcome labels location).code.length +
      if isFailedOperation (s, ⟨location, s.outcome labels location⟩) then Survey.sizeOf s
      else 0 := by
  unfold isFailedOperation
  cases hop : s.isOperation with
  | false =>
    obtain ⟨hcode, hsize⟩ := s.code_outcome_of_not_isOperation hop labels location
    simp [hcode, hsize]
  | true =>
    cases hfault : (s.outcome labels location).isFault with
    | true => simp [LineOutcome.code_eq_nil_of_isFault hfault]
    | false =>
      obtain ⟨code, hcode⟩ := s.exists_outcome_eq_bytes hop hfault
      simp [hcode, LineOutcome.code, s.length_of_outcome_eq_bytes hcode]

theorem Word.add_sub_add {x y : Word} {lead : Nat} (common more : Nat)
    (h : x - y = UInt16.ofNat lead) :
    (x + UInt16.ofNat (common + more)) - (y + UInt16.ofNat common) =
      UInt16.ofNat (lead + more) := by
  rw [UInt16.ofNat_add, UInt16.ofNat_add, ← h]
  grind

namespace Assembler

/-- The first pass's location counter in front of line `i`. -/
def surveyedAddress (a : Assembler) (i : Nat) : Word :=
  (Survey.ofStatements a.base (a.statements.take i)).location

/-- What the second pass, run after the first, knows in front of line `i`. -/
def emissionAt (a : Assembler) (i : Nat) : Emission :=
  Emission.behind a.firstPass.labels (Emission.start a.base) (a.statements.take i)

/-- The statements with the lines that both passes make of them. -/
def source (a : Assembler) : List (Statement × PlacedLine) := a.statements.zip a.assemble.lines

theorem length_assemble (a : Assembler) : a.assemble.lines.length = a.statements.length :=
  Emission.length_run ..

theorem getElem?_assemble (a : Assembler) {i : Nat} {s : Statement}
    (h : a.statements[i]? = some s) :
    a.assemble.lines[i]? = some ⟨(a.emissionAt i).location,
      s.outcome a.firstPass.labels (a.emissionAt i).location⟩ :=
  Emission.getElem?_run _ _ h

theorem exists_statement_of_mem_lines (a : Assembler) {l : PlacedLine}
    (hl : l ∈ a.assemble.lines) :
    ∃ s ∈ a.statements, ∃ location, l.outcome = s.outcome a.firstPass.labels location := by
  obtain ⟨i, hi⟩ := List.mem_iff_getElem?.1 hl
  have hlength := (List.getElem?_eq_some_iff.1 hi).1
  rw [length_assemble] at hlength
  have hs : a.statements[i]? = some a.statements[i] := List.getElem?_eq_getElem hlength
  rw [a.getElem?_assemble hs, Option.some.injEq] at hi
  exact ⟨_, List.getElem_mem hlength, _, by rw [← hi]⟩

theorem emissionAt_succ {a : Assembler} {i : Nat} {s : Statement}
    (hs : a.statements[i]? = some s) :
    a.emissionAt (i + 1) = (a.emissionAt i).next s
      (s.outcome a.firstPass.labels (a.emissionAt i).location) := by
  rw [emissionAt, List.take_add_one, hs, Option.toList_some, Emission.behind_concat, ← emissionAt]

/-- In front of every line the passes have come to the same origin, and the first pass is ahead by
the drift. -/
theorem emissionAt_eq (a : Assembler) {i : Nat} (hi : i ≤ a.statements.length) :
    a.surveyedAddress i - (a.emissionAt i).location = UInt16.ofNat (drift (a.source.take i)) ∧
      (Survey.ofStatements a.base (a.statements.take i)).origin = (a.emissionAt i).origin := by
  induction i with
  | zero => exact ⟨UInt16.sub_self _, rfl⟩
  | succ i ih =>
    obtain ⟨hdrift, horigin⟩ := ih (by omega)
    have hs : a.statements[i]? = some a.statements[i] := List.getElem?_eq_getElem (by omega)
    generalize a.statements[i] = s at hs
    have htake : a.statements.take (i + 1) = a.statements.take i ++ [s] := by
      rw [List.take_add_one, hs, Option.toList_some]
    have hline := a.getElem?_assemble hs
    generalize ho : s.outcome a.firstPass.labels (a.emissionAt i).location = o at hline
    have hsource : a.source.take (i + 1) =
        a.source.take i ++ [(s, ⟨(a.emissionAt i).location, o⟩)] := by
      have hzip : a.source[i]? = some (s, ⟨(a.emissionAt i).location, o⟩) :=
        List.getElem?_zip_eq_some.2 ⟨hs, hline⟩
      rw [List.take_add_one, hzip, Option.toList_some]
    rw [surveyedAddress] at hdrift ⊢
    rw [htake, hsource, emissionAt_succ hs, ho, Survey.ofStatements_concat, Survey.next,
      Emission.next]
    cases ht : s.target? with
    | some address =>
      rw [drift_concat_of_target ht]
      exact ⟨UInt16.sub_self _, rfl⟩
    | none =>
      rw [drift_concat ht]
      have hsize := Survey.sizeOf_eq a.firstPass.labels (a.emissionAt i).location s
      rw [ho] at hsize
      have hahead := Word.add_sub_add o.code.length
        (if isFailedOperation (s, ⟨(a.emissionAt i).location, o⟩) then Survey.sizeOf s else 0)
        hdrift
      rw [← hsize] at hahead
      exact ⟨hahead, horigin⟩

/-- Both passes end at the same origin. -/
theorem origin_assemble (a : Assembler) : a.assemble.origin = a.firstPass.origin := by
  have h := (a.emissionAt_eq (Nat.le_refl _)).2
  rw [emissionAt, List.take_length] at h
  exact h.symm

theorem surveyedAddress_eq {a : Assembler} {i : Nat}
    (h : ∀ l ∈ a.source, isFailedOperation l = false) (hi : i ≤ a.statements.length) :
    a.surveyedAddress i = (a.emissionAt i).location := by
  have hdrift := (a.emissionAt_eq hi).1
  rw [drift_eq_zero fun l hl => h l (List.mem_of_mem_take hl)] at hdrift
  grind

end Assembler

/-! ## Agreement -/

/-- **The passes agree up to the failed instructions since the last origin.** In front of every
line the first pass is ahead of the second by exactly the bytes it left for them, modulo the width
of the counters. When no instruction fails, both counters agree everywhere, and every label stands
for the address of the last line that defines it. Whatever fails, both passes end at the same
origin. -/
theorem counters_agree (lines : List Text) (base : Word) :
    let a := (Assembler.ofLines lines).withOrigin base
    let assembly := a.firstPass.secondPass.1
    let source := a.statements.zip assembly.lines
    assembly.lines.length = lines.length ∧
    (∀ i line, assembly.lines[i]? = some line →
      a.surveyedAddress i - line.address = UInt16.ofNat (drift (source.take i))) ∧
    ((∀ l ∈ source, isFailedOperation l = false) →
      (∀ i line, assembly.lines[i]? = some line → a.surveyedAddress i = line.address) ∧
      ∀ name address, a.firstPass.labels.get? name = some address →
        ∃ i line, IsLastDefinition a.statements name i ∧ assembly.lines[i]? = some line ∧
          line.address = address) ∧
    a.firstPass.origin = a.firstPass.secondPass.2.origin ∧
    assembly.origin = a.firstPass.origin := by
  intro a assembly source
  have hlength : assembly.lines.length = a.statements.length := a.length_assemble
  have haddress : ∀ i line, assembly.lines[i]? = some line →
      a.surveyedAddress i - line.address = UInt16.ofNat (drift (source.take i)) := by
    intro i line hline
    have hi := (List.getElem?_eq_some_iff.1 hline).1
    rw [hlength] at hi
    have hs : a.statements[i]? = some a.statements[i] := List.getElem?_eq_getElem hi
    have hline' : assembly.lines[i]? = _ := a.getElem?_assemble hs
    rw [hline, Option.some.injEq] at hline'
    rw [hline']
    exact (a.emissionAt_eq (Nat.le_of_lt hi)).1
  have horigin : a.firstPass.origin = a.firstPass.secondPass.2.origin := by
    have h := (a.emissionAt_eq (Nat.le_refl _)).2
    rwa [Assembler.emissionAt, List.take_length] at h
  refine ⟨?_, haddress, fun hok => ?_, horigin, horigin.symm⟩
  · rw [hlength]
    exact List.length_map ..
  · have hequal : ∀ i line, assembly.lines[i]? = some line →
        a.surveyedAddress i = line.address := by
      intro i line hline
      have h := haddress i line hline
      rw [drift_eq_zero fun l hl => hok l (List.mem_of_mem_take hl)] at h
      grind
    refine ⟨hequal, fun name address hname => ?_⟩
    have hlabels := Survey.get?_labels a.base a.statements name address a.statements.length
    rw [List.take_length] at hlabels
    obtain ⟨i, hlast, hsurvey⟩ := hlabels hname
    obtain ⟨s, hs, -⟩ := hlast.1
    have hline := a.getElem?_assemble hs
    refine ⟨i, _, hlast, hline, ?_⟩
    rw [← hequal i _ hline]
    exact hsurvey

/-- Behind a load that fails the first pass is two bytes ahead; where nothing fails a label stands
for its line. -/
theorem counters_agree_after_failure :
    (let a := (Assembler.ofLines ["TOP LDAA #$ZZ", "HERE NOP"]).withOrigin 0x1000
     a.firstPass.secondPass.1.lines[1]? = some ⟨0x1000, .bytes [0x01]⟩ ∧
       a.surveyedAddress 1 - 0x1000 = 2) ∧
    (let a := (Assembler.ofLines ["NOP", "LOOP DECB", "loop BNE Loop"]).withOrigin 0x1000
     ∃ i line, IsLastDefinition a.statements "loop" i ∧
       a.firstPass.secondPass.1.lines[i]? = some line ∧ line.address = 0x1002) :=
  ⟨⟨by decide +kernel, (counters_agree _ _).2.1 1 ⟨0x1000, .bytes [0x01]⟩ (by decide +kernel)⟩,
    ((counters_agree _ _).2.2.1 (by decide +kernel)).2 _ _ (by decide +kernel)⟩

end Mc6800
