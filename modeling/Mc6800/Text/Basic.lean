/-!
# Text

A text is its list of characters. Positions and lengths in a text are counted in the bytes of its
UTF-8 form (`Text.size`). Letters are compared without regard to case in ASCII only.
-/

set_option autoImplicit false

namespace Mc6800

/-- A piece of text, character by character. -/
abbrev Text := List Char

/-- A string literal may stand where a text is expected. -/
scoped instance : Coe String Text := ⟨String.toList⟩

namespace Text

/-- The number of bytes of a text in UTF-8. -/
def size : Text → Nat
  | [] => 0
  | c :: rest => c.utf8Size + size rest

@[simp] theorem size_nil : size [] = 0 := rfl

@[simp] theorem size_cons (c : Char) (t : Text) : size (c :: t) = c.utf8Size + size t := rfl

@[simp] theorem size_append (s t : Text) : size (s ++ t) = size s + size t := by
  induction s with
  | nil => simp
  | cons c rest ih => simp only [List.cons_append, size_cons, ih, Nat.add_assoc]

/-- The size of a text is the number of bytes of the string that it makes. -/
theorem size_eq_utf8ByteSize (t : Text) : size t = (String.ofList t).utf8ByteSize := by
  induction t with
  | nil => simp [String.ofList_nil]
  | cons c rest ih =>
    have hcons : String.ofList (c :: rest) = String.singleton c ++ String.ofList rest := by
      rw [String.singleton_eq_ofList, ← String.ofList_append]
      rfl
    rw [size_cons, ih, hcons, String.utf8ByteSize_append, String.utf8ByteSize_singleton]

/-! ## Case -/

/-- The text with its ASCII letters in upper case; all other characters stay. -/
def upper (t : Text) : Text := t.map Char.toUpper

/-- The text with its ASCII letters in lower case; all other characters stay. -/
def lower (t : Text) : Text := t.map Char.toLower

/-- Whether two texts are equal up to the case of ASCII letters. -/
def sameWord (s t : Text) : Bool := upper s == upper t

@[simp] theorem upper_append (s t : Text) : upper (s ++ t) = upper s ++ upper t := by
  simp [upper]

@[simp] theorem length_upper (t : Text) : (upper t).length = t.length := by simp [upper]

/-! ## Markers -/

/-- The text without one leading `marker`, if there is one. -/
def dropMarker (marker : Char) : Text → Text
  | [] => []
  | c :: rest => if c = marker then rest else c :: rest

/-- Lines joined by line feeds, with none after the last. -/
def joinLines (lines : List Text) : Text := ['\n'].intercalate lines

end Text

end Mc6800
