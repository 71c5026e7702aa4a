import Mc6800.Text.Basic

/-!
# UTF-8

Texts as they lie in files.
-/

set_option autoImplicit false

namespace Mc6800.Text

/-- The bytes of a text. -/
def toUtf8 (t : Text) : ByteArray := (String.ofList t).toUTF8

/-- The text that bytes hold, if they are well-formed. -/
def ofUtf8? (bytes : ByteArray) : Option Text := (String.fromUTF8? bytes).map String.toList

/-- A text is read back from its bytes. -/
theorem ofUtf8?_toUtf8 (t : Text) : ofUtf8? (toUtf8 t) = some t := by
  have h (s : String) : String.fromUTF8? s.toUTF8 = some s := by
    unfold String.fromUTF8?
    rw [dif_pos]
    rfl
  rw [ofUtf8?, toUtf8, h, Option.map_some, String.toList_ofList]

end Mc6800.Text
