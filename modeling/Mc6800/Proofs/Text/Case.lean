import Mc6800.Text.Blank
import Mc6800.Text.Lines
import Mc6800.Text.Number

/-!
# The case of letters

Only the letters of ASCII have a case, so what is the same for the lower letters and their upper
forms is the same for every character and its upper form (`Text.toUpper_congr`). Blanks, line ends
and markers are no letters and digits of base sixteen are read in either case, so a text in upper
case is cut at the same places and its numerals have the same values.
-/

set_option autoImplicit false

namespace Mc6800.Text

/-! ## Characters -/

/-- The letters that have another form in upper case. -/
def lowerLetters : List Char := "abcdefghijklmnopqrstuvwxyz".toList

theorem toUpper_eq_or_mem (c : Char) : c.toUpper = c ∨ c ∈ lowerLetters := by
  by_cases h : 97 ≤ c.toNat ∧ c.toNat ≤ 122
  · right
    have hall : ∀ n < 26, Char.ofNat (97 + n) ∈ lowerLetters := by decide
    have hc := hall (c.toNat - 97) (by omega)
    rwa [show 97 + (c.toNat - 97) = c.toNat by omega, Char.ofNat_toNat] at hc
  · left
    unfold Char.toUpper
    split
    · next hc =>
      exact absurd ⟨UInt32.le_iff_toNat_le.1 hc.1, UInt32.le_iff_toNat_le.1 hc.2⟩ h
    · rfl

/-- What does not tell the lower letters from their upper forms tells no character from its own. -/
theorem toUpper_congr {α : Type} {f : Char → α}
    (h : lowerLetters.map (fun c => f c.toUpper) = lowerLetters.map f) (c : Char) :
    f c.toUpper = f c := by
  rcases toUpper_eq_or_mem c with hc | hc
  · rw [hc]
  · exact List.map_eq_map_iff.1 h c hc

theorem toUpper_toUpper (c : Char) : c.toUpper.toUpper = c.toUpper :=
  toUpper_congr (by decide) c

theorem isBlank_toUpper (c : Char) : isBlank c.toUpper = isBlank c :=
  toUpper_congr (by decide) c

theorem utf8Size_toUpper (c : Char) : c.toUpper.utf8Size = c.utf8Size :=
  toUpper_congr (by decide) c

theorem digit?_toUpper (radix : Radix) (c : Char) : radix.digit? c.toUpper = radix.digit? c := by
  cases radix with
  | decimal => exact toUpper_congr (by decide) c
  | hexadecimal => exact toUpper_congr (by decide) c

/-- A character that is no letter is the upper form of itself only. -/
theorem toUpper_eq_iff {d : Char} (hd : d.isAlpha = false) (c : Char) : c.toUpper = d ↔ c = d := by
  rcases toUpper_eq_or_mem c with hc | hc
  · rw [hc]
  · have hletters : lowerLetters.all (fun c => c.isAlpha && c.toUpper.isAlpha) = true := by decide
    obtain ⟨hlower, hupper⟩ := Bool.and_eq_true_iff.1 (List.all_eq_true.1 hletters c hc)
    constructor
    · rintro rfl
      rw [hupper] at hd
      cases hd
    · rintro rfl
      rw [hlower] at hd
      cases hd

theorem toUpper_eq_x_iff (c : Char) :
    (c.toUpper = 'X' ∨ c.toUpper = 'x') ↔ (c = 'X' ∨ c = 'x') := by
  have h : (c.toUpper == 'X' || c.toUpper == 'x') = (c == 'X' || c == 'x') :=
    toUpper_congr (f := fun c => c == 'X' || c == 'x') (by decide) c
  rw [Bool.eq_iff_iff] at h
  simpa using h

/-! ## Texts -/

@[simp] theorem upper_nil : upper [] = [] := rfl

@[simp] theorem upper_cons (c : Char) (t : Text) : upper (c :: t) = c.toUpper :: upper t := rfl

@[simp] theorem upper_upper (t : Text) : upper (upper t) = upper t := by
  simp only [upper, List.map_map, Function.comp_def, toUpper_toUpper]

@[simp] theorem size_upper (t : Text) : size (upper t) = size t := by
  induction t with
  | nil => rfl
  | cons c rest ih => rw [upper_cons, size_cons, size_cons, utf8Size_toUpper, ih]

theorem upper_reverse (t : Text) : upper t.reverse = (upper t).reverse := List.map_reverse

theorem mem_upper_iff {d : Char} (hd : d.isAlpha = false) {t : Text} : d ∈ upper t ↔ d ∈ t := by
  simp only [upper, List.mem_map, toUpper_eq_iff hd, exists_eq_right]

theorem takeWhile_upper {p : Char → Bool} (hp : ∀ c, p c.toUpper = p c) (t : Text) :
    (upper t).takeWhile p = upper (t.takeWhile p) := by
  have hcomp : p ∘ Char.toUpper = p := funext hp
  rw [upper, List.takeWhile_map, hcomp, upper]

theorem dropWhile_upper {p : Char → Bool} (hp : ∀ c, p c.toUpper = p c) (t : Text) :
    (upper t).dropWhile p = upper (t.dropWhile p) := by
  have hcomp : p ∘ Char.toUpper = p := funext hp
  rw [upper, List.dropWhile_map, hcomp, upper]

theorem trimStart_upper (t : Text) : trimStart (upper t) = upper (trimStart t) :=
  dropWhile_upper isBlank_toUpper t

theorem trimEnd_upper (t : Text) : trimEnd (upper t) = upper (trimEnd t) := by
  rw [trimEnd, ← upper_reverse, dropWhile_upper isBlank_toUpper, ← upper_reverse, trimEnd]

theorem trim_upper (t : Text) : trim (upper t) = upper (trim t) := by
  rw [trim, trimStart_upper, trimEnd_upper, trim]

theorem dropMarker_upper {marker : Char} (hm : marker.isAlpha = false) (t : Text) :
    dropMarker marker (upper t) = upper (dropMarker marker t) := by
  cases t with
  | nil => rfl
  | cons c rest =>
    simp only [upper_cons, dropMarker, toUpper_eq_iff hm]
    split <;> rfl

theorem sameWord_upper (s t : Text) : sameWord (upper s) t = sameWord s t := by
  rw [sameWord, upper_upper, sameWord]

/-! ## Lines -/

theorem segments_upper (t : Text) : segments (upper t) = (segments t).map upper := by
  induction t with
  | nil => rfl
  | cons c rest ih =>
    rw [upper_cons, segments, segments, ih]
    simp only [toUpper_eq_iff (d := '\n') rfl]
    split
    · rfl
    · cases segments rest <;> rfl

theorem dropLineEnd_upper (s : Text) : dropLineEnd (upper s) = upper (dropLineEnd s) := by
  have hfeed := toUpper_eq_iff (d := '\n') rfl
  have hreturn := toUpper_eq_iff (d := '\r') rfl
  unfold dropLineEnd
  rw [← upper_reverse]
  generalize hr : s.reverse = r
  cases r with
  | nil => rfl
  | cons c body =>
    by_cases hc : c = '\n'
    · subst hc
      cases body with
      | nil => rfl
      | cons d more =>
        by_cases hd : d = '\r'
        · subst hd
          exact (upper_reverse more).symm
        · have hd' : d.toUpper ≠ '\r' := mt (hreturn d).1 hd
          have hline : upper ('\n' :: d :: more) = '\n' :: d.toUpper :: upper more := rfl
          simp [hline, hd, hd', upper_reverse]
    · have hc' : c.toUpper ≠ '\n' := mt (hfeed c).1 hc
      simp [hc, hc']

theorem lines_upper (t : Text) : lines (upper t) = (lines t).map upper := by
  rw [lines, segments_upper, List.map_map, lines, List.map_map]
  exact List.map_congr_left fun s _ => dropLineEnd_upper s

/-! ## Numerals -/

theorem readDigitsFrom_upper (radix : Radix) (start : Nat) (t : Text) :
    readDigitsFrom radix start (upper t) = readDigitsFrom radix start t := by
  induction t generalizing start with
  | nil => rfl
  | cons c rest ih =>
    rw [upper_cons, readDigitsFrom, readDigitsFrom, digit?_toUpper]
    cases radix.digit? c with
    | none => rfl
    | some d => exact ih _

theorem readDigits?_upper (radix : Radix) (t : Text) :
    readDigits? radix (upper t) = readDigits? radix t := by
  have hempty : (upper t).isEmpty = t.isEmpty := List.isEmpty_map
  rw [readDigits?, hempty, readDigitsFrom_upper, readDigits?]

end Mc6800.Text
