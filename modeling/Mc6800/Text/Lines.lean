import Mc6800.Text.Basic

/-!
# Lines

A text is cut behind every line feed into segments, which put together are the text again
(`flatten_segments`). A line is a segment without its line end: a line feed, or a carriage return
and a line feed. A carriage return elsewhere is an ordinary character.
-/

set_option autoImplicit false

namespace Mc6800.Text

/-- The pieces of a text, each but perhaps the last ending in its only line feed. -/
def segments : Text → List Text
  | [] => []
  | c :: rest =>
    if c = '\n' then ['\n'] :: segments rest
    else
      match segments rest with
      | [] => [[c]]
      | s :: more => (c :: s) :: more

/-- A segment without its line end. -/
def dropLineEnd (s : Text) : Text :=
  match s.reverse with
  | '\n' :: '\r' :: body => body.reverse
  | '\n' :: body => body.reverse
  | _ => s

/-- The lines of a text. There is no empty line behind a final line feed. -/
def lines (t : Text) : List Text := (segments t).map dropLineEnd

theorem flatten_segments (t : Text) : (segments t).flatten = t := by
  induction t with
  | nil => rfl
  | cons c rest ih =>
    unfold segments
    split
    · next h => simp [h, ih]
    · cases hs : segments rest with
      | nil => rw [hs] at ih; simp_all
      | cons s more => rw [hs] at ih; simp_all

@[simp] theorem length_lines (t : Text) : (lines t).length = (segments t).length := by
  simp [lines]

/-- The position at which segment `index` starts, or the size of the text when there is none. -/
def lineStart (t : Text) (index : Nat) : Nat := size ((segments t).take index).flatten

@[simp] theorem lineStart_zero (t : Text) : lineStart t 0 = 0 := by simp [lineStart]

end Mc6800.Text
