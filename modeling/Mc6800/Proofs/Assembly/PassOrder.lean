import Mathlib.Data.List.Basic
import Mathlib.Data.List.Induction
import Mc6800.Proofs.Assembly.Counters

/-!
# The passes in any order

An assembler is worked on by setting its base and running its passes, in any order and any number
of times (`Assembler.performAll`). All that such a history leaves behind, besides the origin that
the next pass replaces, is the base that was set last and the labels of the most recent first pass
(`Assembler.base_performAll`, `Assembler.labels_performAll`). Neither pass reads the origin, so a
first pass followed by a second one makes what a new assembler with that base makes.
-/

set_option autoImplicit false

namespace Mc6800

/-! ## The origin behind a pass -/

/-- The address of the last origin that can be read, or else the base. -/
def lastTarget (base : Word) (statements : List Statement) : Word :=
  (statements.filterMap Statement.target?).getLast?.getD base

theorem lastTarget_concat (base : Word) (statements : List Statement) (s : Statement) :
    lastTarget base (statements ++ [s]) = s.target?.getD (lastTarget base statements) := by
  unfold lastTarget
  rw [List.filterMap_append, List.filterMap_cons, List.filterMap_nil]
  cases s.target? with
  | none => simp
  | some address => simp

theorem Survey.origin_ofStatements (base : Word) (statements : List Statement) :
    (ofStatements base statements).origin = lastTarget base statements := by
  induction statements using List.reverseRecOn with
  | nil => rfl
  | append_singleton statements s ih =>
    rw [ofStatements_concat, lastTarget_concat, next]
    cases s.target? with
    | none => exact ih
    | some address => rfl

theorem Emission.origin_behind (labels : LabelTable) (base : Word) (statements : List Statement) :
    (behind labels (start base) statements).origin = lastTarget base statements := by
  induction statements using List.reverseRecOn with
  | nil => rfl
  | append_singleton statements s ih =>
    rw [behind_concat, lastTarget_concat, next]
    cases s.target? with
    | none => exact ih
    | some address => rfl

namespace Assembler

/-! ## One pass -/

variable (a : Assembler)

/-- The first pass reads the statements and the base. -/
theorem firstPass_eq :
    a.firstPass =
      ⟨a.statements, a.base, lastTarget a.base a.statements,
        (Survey.ofStatements a.base a.statements).labels⟩ := by
  rw [firstPass, Survey.origin_ofStatements]

/-- The second pass reads the statements, the base and the labels. -/
theorem secondPass_eq :
    a.secondPass =
      (⟨lastTarget a.base a.statements,
          ((Emission.start a.base).run a.labels a.statements).1, a.labels⟩,
        ⟨a.statements, a.base, lastTarget a.base a.statements, a.labels⟩) := by
  rw [← Emission.origin_behind a.labels a.base a.statements]
  rfl

/-! ## Histories -/

/-- A change to an assembler from outside. -/
inductive Operation where
  | withOrigin (base : Word)
  | firstPass
  | secondPass
  deriving DecidableEq, Repr

/-- The assembler behind an operation. -/
def perform (a : Assembler) : Operation → Assembler
  | .withOrigin base => a.withOrigin base
  | .firstPass => a.firstPass
  | .secondPass => a.secondPass.2

/-- The assembler behind operations, one after the other. -/
def performAll (a : Assembler) (operations : List Operation) : Assembler :=
  operations.foldl perform a

/-- The base in effect behind operations, of which the latest stands in front. -/
def latestBase : List Operation → Word
  | [] => loadAddress
  | .withOrigin base :: _ => base
  | .firstPass :: earlier | .secondPass :: earlier => latestBase earlier

/-- The base of the most recent first pass among operations, of which the latest stands in
front. -/
def surveyedBase? : List Operation → Option Word
  | [] => none
  | .firstPass :: earlier => some (latestBase earlier)
  | .withOrigin _ :: earlier | .secondPass :: earlier => surveyedBase? earlier

/-- The labels of the most recent first pass over statements, or none before the first one. -/
def surveyedLabels (statements : List Statement) (operations : List Operation) : LabelTable :=
  match surveyedBase? operations with
  | none => .empty
  | some base => (Survey.ofStatements base statements).labels

theorem performAll_concat (operations : List Operation) (o : Operation) :
    a.performAll (operations ++ [o]) = (a.performAll operations).perform o :=
  List.foldl_concat ..

/-- No operation changes the statements. -/
theorem statements_performAll (operations : List Operation) :
    (a.performAll operations).statements = a.statements := by
  induction operations using List.reverseRecOn with
  | nil => rfl
  | append_singleton operations o ih =>
    rw [performAll_concat, ← ih]
    cases o <;> rfl

theorem base_performAll (lines : List Text) (operations : List Operation) :
    ((ofLines lines).performAll operations).base = latestBase operations.reverse := by
  induction operations using List.reverseRecOn with
  | nil => rfl
  | append_singleton operations o ih =>
    rw [performAll_concat, List.reverse_concat]
    cases o with
    | withOrigin base => rfl
    | firstPass | secondPass => exact ih

theorem labels_performAll (lines : List Text) (operations : List Operation) :
    ((ofLines lines).performAll operations).labels =
      surveyedLabels (lines.map Statement.parse) operations.reverse := by
  induction operations using List.reverseRecOn with
  | nil => rfl
  | append_singleton operations o ih =>
    rw [performAll_concat, List.reverse_concat]
    cases o with
    | withOrigin _ | secondPass => exact ih
    | firstPass =>
      -- The labels are made anew, so what the earlier operations left matters by its base alone.
      rw [perform, firstPass_eq, base_performAll, statements_performAll]
      rfl

/-- A base set behind the first pass leaves its labels where they are. -/
example : ((ofLines ["HERE NOP"]).performAll
    [.withOrigin 0x0100, .firstPass, .withOrigin 0x0200, .secondPass]).labels.get? "HERE" =
      some 0x0100 := by decide +kernel

/-- A first pass behind operations is that of a new assembler with their base. -/
theorem firstPass_performAll (lines : List Text) (operations : List Operation) :
    ((ofLines lines).performAll operations).firstPass =
      ((ofLines lines).withOrigin (latestBase operations.reverse)).firstPass := by
  rw [firstPass_eq, firstPass_eq, base_performAll, statements_performAll]
  rfl

/-- A second pass behind operations is that of a new assembler with their base and their labels. -/
theorem secondPass_performAll (lines : List Text) (operations : List Operation) :
    ((ofLines lines).performAll operations).secondPass =
      secondPass { (ofLines lines).withOrigin (latestBase operations.reverse) with
        labels := surveyedLabels (lines.map Statement.parse) operations.reverse } := by
  rw [secondPass_eq, secondPass_eq, base_performAll, labels_performAll, statements_performAll]
  rfl

/-- **The passes may run in any order.** Whatever was done to an assembler, its labels are those of
the most recent first pass. A second pass leaves them alone and depends on them, the lines and the
base only; a first pass depends on the lines and the base only; so a first pass and then a second
one make what a new assembler with that base makes. Either pass ends at the last origin that can be
read, or else at the base, and the second places every line once. -/
theorem passes_in_any_order (lines : List Text) (operations : List Operation) :
    let a := (ofLines lines).performAll operations
    let statements := lines.map Statement.parse
    let base := latestBase operations.reverse
    let labels := surveyedLabels statements operations.reverse
    let new := (ofLines lines).withOrigin base
    (a.base = base ∧ a.labels = labels) ∧
    (a.secondPass.2.labels = labels ∧ a.secondPass = { new with labels }.secondPass) ∧
    a.firstPass = new.firstPass ∧
    a.firstPass.secondPass.1 = new.assemble ∧
    (a.firstPass.origin = lastTarget base statements ∧
      a.secondPass.2.origin = lastTarget base statements ∧
      a.secondPass.1.origin = lastTarget base statements) ∧
    a.secondPass.1.lines.length = lines.length := by
  intro a statements base labels new
  have hlabels : a.labels = labels := labels_performAll lines operations
  have hfirst : a.firstPass = new.firstPass := firstPass_performAll lines operations
  have hsecond : a.secondPass = { new with labels }.secondPass :=
    secondPass_performAll lines operations
  have horigin : lastTarget new.base new.statements = lastTarget base statements := rfl
  refine ⟨⟨base_performAll lines operations, hlabels⟩, ⟨hlabels, hsecond⟩, hfirst, ?_, ⟨?_, ?_, ?_⟩,
    ?_⟩
  · rw [assemble, hfirst]
  · rw [hfirst, firstPass_eq]
    exact horigin
  · rw [hsecond, secondPass_eq]
    exact horigin
  · rw [hsecond, secondPass_eq]
    exact horigin
  · rw [hsecond, secondPass_eq, Emission.length_run]
    exact List.length_map ..

end Assembler

end Mc6800
