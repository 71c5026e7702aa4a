import Mc6800.Terminal

/-!
# Paint

A text in an ink stands between the escape sequence that sets the ink and the one that ends all
colours.
-/

set_option autoImplicit false

namespace Mc6800

/-- The escape sequence that sets an ink. -/
def Ink.sequence : Ink → Text
  | red => escapeSequence "31"
  | green => escapeSequence "32"
  | yellow => escapeSequence "33"
  | blue => escapeSequence "34"
  | cyan => escapeSequence "36"
  | dimmed => escapeSequence "2"

namespace Text

/-- A text that is shown in an ink, with the ink set again wherever the text ends all colours. -/
def keepInk (ink : Ink) : Text → Text
  | [] => []
  | '\x1b' :: '[' :: '0' :: 'm' :: rest => resetSequence ++ ink.sequence ++ keepInk ink rest
  | c :: rest => c :: keepInk ink rest

/-- A text in an ink. An empty text stays empty. -/
def paint (ink : Ink) (t : Text) : Text :=
  if t.isEmpty then [] else ink.sequence ++ keepInk ink t ++ resetSequence

end Text

end Mc6800
