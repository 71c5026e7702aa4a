import Mc6800.Source.Field
import Mc6800.Text.Blank

/-!
# Scanning a line

A scanner hands out the fields of a line from left to right, either one word at a time or all that
is left. It never moves back: what it has passed and what is left are together the line.
-/

set_option autoImplicit false

namespace Mc6800

/-- A place in a line: how many bytes lie behind it, and the text still to be read. -/
structure Scanner where
  position : Nat
  rest : Text
  deriving DecidableEq, Repr

namespace Scanner

/-- A scanner in front of a line. -/
def ofLine (line : Text) : Scanner := ⟨0, line⟩

/-- The scanner behind the first characters that satisfy `p`. -/
def skipWhile (s : Scanner) (p : Char → Bool) : Scanner :=
  ⟨s.position + Text.size (s.rest.takeWhile p), s.rest.dropWhile p⟩

/-- The scanner in front of the next character that is not blank. -/
def skipBlanks (s : Scanner) : Scanner := s.skipWhile Text.isBlank

/-- The next word of the line. -/
def nextWord (s : Scanner) : Option Field × Scanner :=
  let s := s.skipBlanks
  match s.rest with
  | [] => (none, s)
  | _ =>
    let isInside := fun c => !Text.isBlank c
    (some ⟨s.rest.takeWhile isInside, s.position⟩, s.skipWhile isInside)

/-- All that is left of the line as one field, without the blanks around it. -/
def remainder (s : Scanner) : Option Field × Scanner :=
  let s := s.skipBlanks
  match s.rest with
  | [] => (none, s)
  | _ => (some ⟨Text.trimEnd s.rest, s.position⟩, s.skipWhile fun _ => true)

@[simp] theorem position_ofLine (line : Text) : (ofLine line).position = 0 := rfl

@[simp] theorem rest_ofLine (line : Text) : (ofLine line).rest = line := rfl

/-- Skipping moves the position by the bytes that it takes off the rest. -/
theorem position_skipWhile (s : Scanner) (p : Char → Bool) :
    (s.skipWhile p).position + Text.size (s.skipWhile p).rest =
      s.position + Text.size s.rest := by
  have h := congrArg Text.size (List.takeWhile_append_dropWhile (p := p) (l := s.rest))
  rw [Text.size_append] at h
  simp only [skipWhile]
  omega

end Scanner

end Mc6800
