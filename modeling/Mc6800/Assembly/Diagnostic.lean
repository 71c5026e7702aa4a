import Mc6800.Assembly.Basic
import Mc6800.Text.Lines

/-!
# Diagnostics

A fault as it is reported to the user: with the number of its line, counted from one, and with its
place counted from the start of the whole source.
-/

set_option autoImplicit false

namespace Mc6800

/-- A fault for the user. -/
structure Diagnostic where
  message : Text
  code : Text
  help : Text
  /-- What is written at the place. -/
  label : Text
  /-- The place in the whole source. -/
  span : Span
  deriving DecidableEq, Repr

namespace Diagnostic

/-- How grave every diagnostic is. -/
def severity : Text := "Error"

/-- The diagnostic of a fault in a source. A line behind the last starts at the source's end. -/
def ofFault (source : Text) (f : LocatedFault) : Diagnostic where
  message := "Line " ++ Text.ofNat (f.line + 1) ++ ": " ++ f.fault.message
  code := f.fault.code
  help := f.fault.help
  label := f.fault.label
  span := f.span.shift (Text.lineStart source f.line)

/-- The diagnostic of a file as plain text, in three lines. -/
def render (d : Diagnostic) (name : Text) : Text :=
  severity ++ " " ++ d.code ++ ": " ++ d.message ++ "\n" ++
    "  at " ++ name ++ ", byte " ++ Text.ofNat d.span.start ++ ": " ++ d.label ++ "\n" ++
    "  help: " ++ d.help ++ "\n"

end Diagnostic

end Mc6800
