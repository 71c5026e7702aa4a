import Mc6800.Text.Basic

/-!
# Spans

A span is a place in a text, in bytes. A text may have no piece there: the place may reach beyond
the text or cut a character in two. A text is found again at its own place between any two others
(`slice?_append`).
-/

set_option autoImplicit false

namespace Mc6800

/-- A start and a length, both in bytes of UTF-8. -/
structure Span where
  start : Nat
  length : Nat
  deriving DecidableEq, Repr

namespace Span

/-- The position behind the span. -/
def stop (s : Span) : Nat := s.start + s.length

/-- The same piece in a text that has `offset` more bytes in front. -/
def shift (s : Span) (offset : Nat) : Span := { s with start := s.start + offset }

@[simp] theorem stop_shift (s : Span) (n : Nat) : (s.shift n).stop = s.stop + n := by
  simp only [stop, shift]
  omega

end Span

/-! ## The piece at a span -/

namespace Text

/-- The text behind its first bytes, as many as are asked for. -/
def dropBytes? : Nat → Text → Option Text
  | 0, t => some t
  | _ + 1, [] => none
  | n + 1, c :: rest => if c.utf8Size ≤ n + 1 then dropBytes? (n + 1 - c.utf8Size) rest else none

/-- The first bytes of a text, as many as are asked for. -/
def takeBytes? : Nat → Text → Option Text
  | 0, _ => some []
  | _ + 1, [] => none
  | n + 1, c :: rest =>
    if c.utf8Size ≤ n + 1 then (takeBytes? (n + 1 - c.utf8Size) rest).map (c :: ·) else none

/-- The piece of a text at a span. -/
def slice? (t : Text) (s : Span) : Option Text := (dropBytes? s.start t).bind (takeBytes? s.length)

theorem dropBytes?_size_append (s t : Text) : dropBytes? (size s) (s ++ t) = some t := by
  induction s with
  | nil => cases t <;> rfl
  | cons c rest ih =>
    obtain ⟨n, hn⟩ : ∃ n, c.utf8Size = n + 1 := ⟨c.utf8Size - 1, by have := c.utf8Size_pos; omega⟩
    have hsize : size (c :: rest) = (n + size rest) + 1 := by rw [size_cons, hn]; omega
    rw [hsize, List.cons_append, dropBytes?, if_pos (by omega)]
    rw [show n + size rest + 1 - c.utf8Size = size rest by omega, ih]

theorem takeBytes?_size_append (s t : Text) : takeBytes? (size s) (s ++ t) = some s := by
  induction s with
  | nil => cases t <;> rfl
  | cons c rest ih =>
    obtain ⟨n, hn⟩ : ∃ n, c.utf8Size = n + 1 := ⟨c.utf8Size - 1, by have := c.utf8Size_pos; omega⟩
    have hsize : size (c :: rest) = (n + size rest) + 1 := by rw [size_cons, hn]; omega
    rw [hsize, List.cons_append, takeBytes?, if_pos (by omega)]
    rw [show n + size rest + 1 - c.utf8Size = size rest by omega, ih, Option.map_some]

/-- A text between two others is the piece at its own place. -/
theorem slice?_append (s t u : Text) : slice? (s ++ t ++ u) ⟨size s, size t⟩ = some t := by
  rw [slice?, List.append_assoc, dropBytes?_size_append, Option.bind_some,
    takeBytes?_size_append]

end Text

end Mc6800
