import Mc6800.Text.Basic

/-!
# Terminals

What printing a text puts out depends on the terminal: whether it shows colours, and whether it is
minimal, in which case decoration is left out and every escape sequence is taken away. An escape
sequence is ESC, `[`, a code and `m`. How a text is shown in an ink is up to the terminal.
-/

set_option autoImplicit false

namespace Mc6800

/-! ## Escape sequences -/

/-- The character with which every escape sequence begins. -/
def escape : Char := '\x1b'

/-- The escape sequence with a code. -/
def escapeSequence (code : Text) : Text := escape :: '[' :: code ++ "m"

/-- The escape sequence that ends all colours. -/
def resetSequence : Text := escapeSequence "0"

/-- A colour or a fainter face. -/
inductive Ink where
  | red
  | green
  | yellow
  | blue
  | cyan
  | dimmed
  deriving DecidableEq, Repr

namespace Text

/-- A text without its escape sequences, each of which goes on to the next `m`. The flag says that
the text begins in the middle of one. -/
def decolourFrom (inside : Bool) : Text → Text
  | [] => []
  | c :: rest =>
    if inside then decolourFrom (c != 'm') rest
    else if c = escape then decolourFrom true rest
    else c :: decolourFrom false rest

/-- A text without its escape sequences. One that is not ended takes the rest of the text. -/
def decolour (t : Text) : Text := decolourFrom false t

@[simp] theorem decolour_nil : decolour [] = [] := rfl

/-- No escape sequence is left. -/
theorem escape_notMem_decolourFrom (inside : Bool) (t : Text) :
    escape ∉ decolourFrom inside t := by
  induction t generalizing inside with
  | nil => simp [decolourFrom]
  | cons c rest ih =>
    unfold decolourFrom
    split
    · exact ih _
    · split
      · exact ih _
      · next hc => simpa [ih] using fun h => hc h.symm

end Text

/-! ## Printing -/

/-- What a printed text is to the user. -/
inductive Channel where
  /-- What was asked for. It is always shown. -/
  | result
  /-- Decoration that is always shown. -/
  | lasting
  /-- Decoration that a minimal terminal leaves out. -/
  | passing
  deriving DecidableEq, Repr

/-- How a terminal shows what is printed. -/
structure Terminal where
  minimal : Bool
  colour : Bool
  /-- What is put out for a text in an ink where colours are shown. -/
  paint : Ink → Text → Text

namespace Terminal

/-- A text in an ink, on a terminal that shows colours. -/
def ink (t : Terminal) (ink : Ink) (s : Text) : Text := if t.colour then t.paint ink s else s

/-- What printing a text puts out. Decoration is blue. -/
def put (t : Terminal) (channel : Channel) (s : Text) : Text :=
  match channel, t.minimal with
  | .result, false => s
  | .lasting, false | .passing, false => t.ink .blue s
  | .result, true | .lasting, true => Text.decolour s
  | .passing, true => []

/-- What printing a line puts out. The line feed is printed by itself. -/
def putLine (t : Terminal) (channel : Channel) (s : Text) : Text :=
  t.put channel s ++ t.put channel "\n"

/-- What printing lines puts out. -/
def putLines (t : Terminal) (channel : Channel) (lines : List Text) : Text :=
  lines.flatMap (t.putLine channel)

end Terminal

end Mc6800
