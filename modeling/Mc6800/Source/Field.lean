import Mc6800.Text.Span

/-!
# Fields

A field is a piece of a line together with its place there.
-/

set_option autoImplicit false

namespace Mc6800

/-- A piece of a line as it is written, and where in the line it starts. -/
structure Field where
  text : Text
  start : Nat
  deriving DecidableEq, Repr

namespace Field

/-- The place of the field in its line. -/
def span (f : Field) : Span := ⟨f.start, Text.size f.text⟩

/-- Whether the field is this word, in either case. -/
def is (f : Field) (word : Text) : Bool := Text.sameWord f.text word

end Field

end Mc6800
