import Mc6800.Assembly.Basic
import Mc6800.Assembly.Encode
import Mc6800.Source.Statement
import Mc6800.Text.Lines

/-!
# The two passes

The first pass surveys the statements: it sizes them and gives every label the location counter in
front of its line. The second pass encodes them with those labels. Both count from the same base
and go to the same origins, but a line with a fault moves the counter only in the first pass, so
behind such a line the two may differ until the next origin.
-/

set_option autoImplicit false

namespace Mc6800

/-- The address at which assembly begins, and at which programs are loaded. -/
def loadAddress : Word := 0xC000

/-! ## First pass -/

/-- What the first pass knows between two lines. -/
structure Survey where
  location : Word
  origin : Word
  labels : LabelTable
  deriving DecidableEq, Repr

namespace Survey

/-- The survey in front of the first line. -/
def start (base : Word) : Survey := ⟨base, base, .empty⟩

/-- The number of bytes that the first pass leaves for a statement: the length of its instruction,
or one byte for an instruction that does not exist. -/
def sizeOf (s : Statement) : Nat :=
  match s with
  | .operation .. => (s.instruction?.map Instruction.length).getD 1
  | _ => 0

/-- The labels with that of a statement at `location`, if it has one. -/
def define (labels : LabelTable) (label : Option Field) (location : Word) : LabelTable :=
  match label with
  | none => labels
  | some name => labels.insert name.text location

/-- The survey behind a statement. -/
def next (v : Survey) (s : Statement) : Survey :=
  let labels := define v.labels s.label? v.location
  match s.target? with
  | some address => ⟨address, address, labels⟩
  | none => ⟨v.location + UInt16.ofNat (sizeOf s), v.origin, labels⟩

/-- The survey behind a list of statements. -/
def ofStatements (base : Word) (statements : List Statement) : Survey :=
  statements.foldl next (start base)

end Survey

/-! ## Second pass -/

/-- What the second pass makes of a statement at `location`. -/
def Statement.outcome (labels : LabelTable) (location : Word) (s : Statement) : LineOutcome :=
  match s with
  | .empty | .finish _ | .label _ => .empty
  | .origin keyword operand =>
    match s.target? with
    | some _ => .empty
    | none =>
      let blamed := operand.getD keyword
      .fault (.badOrigin blamed.text) blamed.span
  | .operation _ mnemonic operand =>
    match s.instruction? with
    | none => .fault (.invalidInstruction (Text.upper mnemonic.text)) mnemonic.span
    | some i =>
      match i.encode labels (Text.trim ((operand.map Field.text).getD [])) location with
      | .ok bytes => .bytes bytes
      | .error fault => .fault fault (operand.getD mnemonic).span

/-- What the second pass knows between two lines. -/
structure Emission where
  location : Word
  origin : Word
  deriving DecidableEq, Repr

namespace Emission

/-- The emission in front of the first line. -/
def start (base : Word) : Emission := ⟨base, base⟩

/-- The emission behind a statement with this outcome: the counter moves past the code that there
is, or to the statement's origin. -/
def next (e : Emission) (s : Statement) (outcome : LineOutcome) : Emission :=
  match s.target? with
  | some address => ⟨address, address⟩
  | none => ⟨e.location + UInt16.ofNat outcome.code.length, e.origin⟩

/-- The lines that statements become, and the emission behind them. -/
def run (labels : LabelTable) (e : Emission) : List Statement → List PlacedLine × Emission
  | [] => ([], e)
  | s :: rest =>
    let outcome := s.outcome labels e.location
    let (lines, final) := run labels (e.next s outcome) rest
    (⟨e.location, outcome⟩ :: lines, final)

theorem length_run (labels : LabelTable) (e : Emission) (statements : List Statement) :
    (run labels e statements).1.length = statements.length := by
  induction statements generalizing e with
  | nil => rfl
  | cons s rest ih => simp [run, ih]

end Emission

/-! ## Both passes -/

/-- An assembler over a fixed list of statements. Its passes may be run in any order: the second
uses the labels of the last first pass. -/
structure Assembler where
  statements : List Statement
  /-- The location counter in front of the first line. -/
  base : Word
  /-- The last origin that the most recent pass came to. -/
  origin : Word
  /-- The labels of the last first pass. -/
  labels : LabelTable
  deriving DecidableEq, Repr

namespace Assembler

/-- An assembler before its first pass. -/
def ofLines (lines : List Text) : Assembler :=
  ⟨lines.map Statement.parse, loadAddress, loadAddress, .empty⟩

/-- An assembler for the lines of a source. -/
def ofSource (source : Text) : Assembler := ofLines (Text.lines source)

/-- The assembler with the location counter starting at another address. -/
def withOrigin (a : Assembler) (base : Word) : Assembler := { a with base, origin := base }

/-- Sizes every line and gives the labels their addresses. -/
def firstPass (a : Assembler) : Assembler :=
  let survey := Survey.ofStatements a.base a.statements
  { a with origin := survey.origin, labels := survey.labels }

/-- Encodes every line with the labels of the last first pass. -/
def secondPass (a : Assembler) : Assembly × Assembler :=
  let (lines, final) := (Emission.start a.base).run a.labels a.statements
  (⟨final.origin, lines, a.labels⟩, { a with origin := final.origin })

/-- Both passes. -/
def assemble (a : Assembler) : Assembly := a.firstPass.secondPass.1

end Assembler

/-- Assembles a source from the load address. -/
def assemble (source : Text) : Assembly := (Assembler.ofSource source).assemble

end Mc6800
