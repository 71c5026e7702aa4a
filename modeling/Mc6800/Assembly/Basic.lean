import Mc6800.Assembly.Fault
import Mc6800.LabelTable

/-!
# Assemblies

The outcome of assembling a source: for each of its lines the location counter in front of the line
and what became of the line, and for the whole the last origin and the labels. An assembly is shown
as machine code text, one line for each line of source, or as the bytes alone.
-/

set_option autoImplicit false

namespace Mc6800

/-- What becomes of a line of source. -/
inductive LineOutcome where
  /-- The line asks for no code. -/
  | empty
  /-- The code of the line's instruction. -/
  | bytes (code : List Byte)
  /-- The line has no code because of a fault at this place of it. -/
  | fault (fault : Fault) (span : Span)
  deriving DecidableEq, Repr

namespace LineOutcome

/-- The code of the line, if any. -/
def code : LineOutcome → List Byte
  | bytes code => code
  | empty | fault .. => []

/-- Whether the line has a fault. -/
def isFault : LineOutcome → Bool
  | fault .. => true
  | empty | bytes _ => false

/-- What stands in front of a fault in machine code text. -/
def faultMarker : Text := "ERROR:"

/-- The line of machine code text: nothing, pairs of digits, or the message of the fault. -/
def render : LineOutcome → Text
  | empty => []
  | bytes code => Text.ofBytes code
  | fault f _ => faultMarker ++ " " ++ f.message

end LineOutcome

/-- A line's outcome and the location counter in front of the line. -/
structure PlacedLine where
  address : Word
  outcome : LineOutcome
  deriving DecidableEq, Repr

/-- A fault and its place: the line, counted from zero, and the span in the line. -/
structure LocatedFault where
  line : Nat
  fault : Fault
  span : Span
  deriving DecidableEq, Repr

/-- The outcome of assembling a source. -/
structure Assembly where
  /-- The address that the last readable origin set, or else the base. -/
  origin : Word
  lines : List PlacedLine
  labels : LabelTable
  deriving DecidableEq, Repr

namespace Assembly

/-- The faults among lines of which the first has the number `line`. -/
def faultsFrom (line : Nat) : List PlacedLine → List LocatedFault
  | [] => []
  | ⟨_, .fault f span⟩ :: rest => ⟨line, f, span⟩ :: faultsFrom (line + 1) rest
  | _ :: rest => faultsFrom (line + 1) rest

/-- The faults of all lines, in order. -/
def faults (a : Assembly) : List LocatedFault := faultsFrom 0 a.lines

/-- Whether some line has a fault. -/
def hasFaults (a : Assembly) : Bool := a.lines.any fun l => l.outcome.isFault

/-- The machine code text, with no line feed behind its last line. -/
def machineCode (a : Assembly) : Text := Text.joinLines (a.lines.map fun l => l.outcome.render)

/-- The bytes of all lines in order. -/
def image (a : Assembly) : List Byte := a.lines.flatMap fun l => l.outcome.code

theorem isEmpty_faultsFrom (line : Nat) (lines : List PlacedLine) :
    (faultsFrom line lines).isEmpty = !lines.any fun l => l.outcome.isFault := by
  induction lines generalizing line with
  | nil => rfl
  | cons l rest ih =>
    obtain ⟨address, outcome⟩ := l
    cases outcome <;> simp [faultsFrom, LineOutcome.isFault, ih]

/-- There are faults to list exactly when some line has one. -/
theorem isEmpty_faults (a : Assembly) : a.faults.isEmpty = !a.hasFaults :=
  isEmpty_faultsFrom ..

end Assembly

end Mc6800
