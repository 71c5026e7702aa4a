import Mc6800.Proofs.Assembly.References

/-!
# How far a faulty line reaches

A line may be put in the place of another that defines the same label and is sized alike by the
first pass. Then the first pass comes out the same (`Survey.ofStatements_exchange`), so only the
second pass's counter can carry a difference to other lines. It carries none if both lines have code
of the same length, which is if both or neither are faulty (`Statement.length_code_outcome_iff`).
Otherwise it does up to the next readable origin, behind which the counter no longer depends on
what came before (`Emission.drop_run_of_target`).
-/

set_option autoImplicit false

namespace Mc6800

/-! ## One statement -/

namespace Statement

variable {s t : Statement} {labels : LabelTable} {location : Word}

theorem sizeOf_pos (h : s.isOperation = true) : 0 < Survey.sizeOf s := by
  cases s with
  | empty | finish _ | label _ | origin _ _ => cases h
  | operation l mnemonic operand =>
    dsimp only [Survey.sizeOf]
    cases (operation l mnemonic operand).instruction? with
    | none => exact Nat.one_pos
    | some i => exact i.mode.length_pos

/-- The code of a statement has the size that the first pass leaves for it, or there is none because
of a fault. -/
theorem length_code_outcome (s : Statement) (labels : LabelTable) (location : Word) :
    (s.outcome labels location).code.length =
      if (s.outcome labels location).isFault then 0 else Survey.sizeOf s := by
  cases hoperation : s.isOperation with
  | true =>
    cases hfault : (s.outcome labels location).isFault with
    | true => rw [LineOutcome.code_eq_nil_of_isFault hfault, if_pos rfl, List.length_nil]
    | false =>
      obtain ⟨code, hcode⟩ := s.exists_outcome_eq_bytes hoperation hfault
      rw [hcode, if_neg (by simp), LineOutcome.code, s.length_of_outcome_eq_bytes hcode]
  | false =>
    obtain ⟨hcode, hsize⟩ := s.code_outcome_of_not_isOperation hoperation labels location
    rw [hcode, hsize, ite_self, List.length_nil]

theorem isOperation_of_isFault (h : s.isOrigin = false)
    (hfault : (s.outcome labels location).isFault = true) : s.isOperation = true := by
  cases s with
  | operation _ _ _ => rfl
  | origin _ _ => cases h
  | empty | finish _ | label _ => cases hfault

/-- Two statements of one size have code of one length exactly if both or neither are faulty. -/
theorem length_code_outcome_iff (hs : s.isOrigin = false) (ht : t.isOrigin = false)
    (hsize : Survey.sizeOf t = Survey.sizeOf s) (labels : LabelTable) (location : Word) :
    (t.outcome labels location).code.length = (s.outcome labels location).code.length ↔
      (t.outcome labels location).isFault = (s.outcome labels location).isFault := by
  rw [length_code_outcome, length_code_outcome, hsize]
  cases hfault : (s.outcome labels location).isFault with
  | true =>
    have hpos := sizeOf_pos (isOperation_of_isFault hs hfault)
    cases (t.outcome labels location).isFault with
    | true => simp
    | false => simpa using Nat.ne_of_gt hpos
  | false =>
    cases hfault' : (t.outcome labels location).isFault with
    | true =>
      have hpos := sizeOf_pos (isOperation_of_isFault ht hfault')
      rw [hsize] at hpos
      simpa using (Nat.ne_of_gt hpos).symm
    | false => simp

end Statement

/-! ## The second pass -/

namespace Emission

variable {labels : LabelTable} {s t org : Statement} {address : Word}

theorem next_of_target (h : s.target? = some address) (e : Emission) (outcome : LineOutcome) :
    e.next s outcome = ⟨address, address⟩ := by
  simp only [next, h]

theorem next_congr (hs : s.target? = none) (ht : t.target? = none) {o p : LineOutcome}
    (h : p.code.length = o.code.length) (e : Emission) : e.next t p = e.next s o := by
  simp only [next, hs, ht, h]

theorem take_run (labels : LabelTable) (e : Emission) (front rest : List Statement) :
    (run labels e (front ++ rest)).1.take front.length = (run labels e front).1 := by
  have hlength : (run labels e front).1.length = front.length := length_run ..
  rw [run_append, ← hlength]
  exact List.take_left

theorem drop_run (labels : LabelTable) (e : Emission) (front rest : List Statement)
    (s : Statement) :
    (run labels e (front ++ s :: rest)).1.drop (front.length + 1) =
      (run labels ((behind labels e front).next s
        (s.outcome labels (behind labels e front).location)) rest).1 := by
  have hlength : (run labels e front).1.length = front.length := length_run ..
  rw [run_append, ← hlength]
  exact List.drop_length_add_append ..

/-- Behind a readable origin the lines do not depend on where it was read. -/
theorem drop_run_of_target (h : org.target? = some address) (e e' : Emission)
    (between below : List Statement) :
    (run labels e (between ++ org :: below)).1.drop (between.length + 1) =
      (run labels e' (between ++ org :: below)).1.drop (between.length + 1) := by
  rw [drop_run, drop_run, next_of_target h, next_of_target h]

/-- One statement in the place of another changes no line in front of it, and none behind it if both
have code of one length. Behind the next readable origin it changes none in any case. -/
theorem run_with_other (labels : LabelTable) (e : Emission) (front rest : List Statement)
    (hs : s.target? = none) (ht : t.target? = none) :
    let x := (run labels e (front ++ s :: rest)).1
    let y := (run labels e (front ++ t :: rest)).1
    let location := (behind labels e front).location
    x[front.length]? = some ⟨location, s.outcome labels location⟩ ∧
    y[front.length]? = some ⟨location, t.outcome labels location⟩ ∧
    y.take front.length = x.take front.length ∧
    ((t.outcome labels location).code.length = (s.outcome labels location).code.length →
      y.drop (front.length + 1) = x.drop (front.length + 1)) ∧
    ∀ between org below address, rest = between ++ org :: below → org.target? = some address →
      y.drop (front.length + 1 + (between.length + 1)) =
        x.drop (front.length + 1 + (between.length + 1)) := by
  intro x y location
  have hline : ∀ u : Statement, (run labels e (front ++ u :: rest)).1[front.length]? =
      some ⟨location, u.outcome labels location⟩ := by
    intro u
    have hu : (front ++ u :: rest)[front.length]? = some u := by simp
    have h := getElem?_run labels e hu
    rwa [List.take_left] at h
  refine ⟨hline s, hline t, ?_, fun hlength => ?_, ?_⟩
  · show List.take _ (run ..).1 = List.take _ (run ..).1
    rw [take_run, take_run]
  · show List.drop _ (run ..).1 = List.drop _ (run ..).1
    rw [drop_run, drop_run, next_congr hs ht hlength]
  · rintro between org below address rfl horg
    have hdrop : ∀ u : Statement,
        (run labels e (front ++ u :: (between ++ org :: below))).1.drop
            (front.length + 1 + (between.length + 1)) =
          (run labels ((behind labels e front).next u (u.outcome labels location))
            (between ++ org :: below)).1.drop (between.length + 1) := by
      intro u
      rw [← drop_run, List.drop_drop]
    exact (hdrop t).trans ((drop_run_of_target horg ..).trans (hdrop s).symm)

end Emission

/-! ## Two assemblies -/

namespace Assembler

/-- **A faulty line reaches no further than the next origin.** Two sources that differ in one line,
which defines the same label, is no origin and is sized alike in both, have the same labels, the
same last origin and the same lines in front of it. The line is placed at the same address, and if
it has code of the same length in both, the lines behind it are the same too. That is the case
exactly if both or neither of its versions are faulty. Otherwise the lines behind the next readable
origin are the same. -/
theorem assemble_with_other_line (base : Word) (front rest : List Text) {line line' : Text}
    (hlabel : (Statement.parse line').labelName? = (Statement.parse line).labelName?)
    (horigin : (Statement.parse line).isOrigin = false)
    (horigin' : (Statement.parse line').isOrigin = false)
    (hsize : Survey.sizeOf (.parse line') = Survey.sizeOf (.parse line)) :
    let x := ((ofLines (front ++ line :: rest)).withOrigin base).assemble
    let y := ((ofLines (front ++ line' :: rest)).withOrigin base).assemble
    y.labels = x.labels ∧ y.origin = x.origin ∧
    y.lines.take front.length = x.lines.take front.length ∧
    (∃ l l', x.lines[front.length]? = some l ∧ y.lines[front.length]? = some l' ∧
      l'.address = l.address ∧
      (l'.outcome.code.length = l.outcome.code.length ↔
        l'.outcome.isFault = l.outcome.isFault) ∧
      (l'.outcome.code.length = l.outcome.code.length →
        y.lines.drop (front.length + 1) = x.lines.drop (front.length + 1))) ∧
    ∀ between org below address, rest = between ++ org :: below →
      (Statement.parse org).target? = some address →
        y.lines.drop (front.length + 1 + (between.length + 1)) =
          x.lines.drop (front.length + 1 + (between.length + 1)) := by
  intro x y
  have htarget := Statement.target?_of_not_isOrigin horigin
  have htarget' := Statement.target?_of_not_isOrigin horigin'
  have hsurvey := Survey.ofStatements_exchange base (front.map Statement.parse)
    (rest.map Statement.parse) hlabel (htarget'.trans htarget.symm) hsize
  have hlabels : y.labels = x.labels := by
    simp only [x, y, withOrigin_ofLines, assemble, secondPass, firstPass, ofStatements,
      List.map_append, List.map_cons, hsurvey]
  have horigins : y.origin = x.origin := by
    simp only [x, y, origin_assemble, withOrigin_ofLines, firstPass, ofStatements,
      List.map_append, List.map_cons, hsurvey]
  have hx : x.lines = (Emission.run x.labels (.start base)
      (front.map Statement.parse ++ .parse line :: rest.map Statement.parse)).1 := by
    rw [← List.map_cons, ← List.map_append]
    rfl
  have hy : y.lines = (Emission.run x.labels (.start base)
      (front.map Statement.parse ++ .parse line' :: rest.map Statement.parse)).1 := by
    rw [← List.map_cons, ← List.map_append, ← hlabels]
    rfl
  obtain ⟨hline, hline', hfront, hrest, hbelow⟩ := Emission.run_with_other x.labels (.start base)
    (front.map Statement.parse) (rest.map Statement.parse) htarget htarget'
  rw [← hx, List.length_map] at hline
  rw [← hy, List.length_map] at hline'
  rw [← hx, ← hy, List.length_map] at hfront hrest hbelow
  refine ⟨hlabels, horigins, hfront, ⟨_, _, hline, hline', rfl, ?_, hrest⟩, ?_⟩
  · exact Statement.length_code_outcome_iff horigin horigin' hsize ..
  · rintro between org below address rfl horg
    have h := hbelow (between.map Statement.parse) (.parse org) (below.map Statement.parse) address
      (by rw [List.map_append, List.map_cons]) horg
    rwa [List.length_map] at h

/-- A load that fails moves the branch behind it out of reach, and nothing behind the origin. -/
theorem assemble_with_failing_load :
    let front : List Text := ["TOP NOP"]
    let line : Text := "HERE LDAA #5"
    let line' : Text := "here LDAA #$ZZ"
    let rest : List Text := ["BRA FAR", "ORG $C084", "FAR JMP TOP", "BRA FAR"]
    let x := ((ofLines (front ++ line :: rest)).withOrigin 0xC000).assemble
    let y := ((ofLines (front ++ line' :: rest)).withOrigin 0xC000).assemble
    x.lines[2]? = some ⟨0xC003, .bytes [0x20, 0x7F]⟩ ∧
      y.lines[2]? = some ⟨0xC001, .fault (.branchOutOfRange "FAR" 129) ⟨4, 3⟩⟩ ∧
      y.lines.drop 4 = x.lines.drop 4 := by
  intro front line line' rest x y
  refine ⟨by decide +kernel, by decide +kernel, ?_⟩
  have hlabel : (Statement.parse line').labelName? = (Statement.parse line).labelName? := by
    decide +kernel
  obtain ⟨-, -, -, -, hbelow⟩ := assemble_with_other_line 0xC000 front rest hlabel
    (by decide +kernel) (by decide +kernel) (by decide +kernel)
  exact hbelow ["BRA FAR"] "ORG $C084" ["FAR JMP TOP", "BRA FAR"] 0xC084 rfl
    (by decide +kernel)

end Assembler

end Mc6800
