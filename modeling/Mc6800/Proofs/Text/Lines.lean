import Mc6800.Text.Lines

/-!
# Lines that are joined and read again

A text without line feeds that does not end in a carriage return is found again as a line
(`Text.IsLine`). Joined lines read as themselves, but for an empty last line, which is not found
again (`lines_joinLines`); with a line feed behind the last line all of them are
(`lines_joinLines_concat`).
-/

set_option autoImplicit false

namespace Mc6800.Text

/-- No line feed, and no carriage return at the end. -/
def IsLine (t : Text) : Prop := '\n' ∉ t ∧ t.getLast? ≠ some '\r'

theorem isLine_nil : IsLine [] := ⟨List.not_mem_nil, by simp⟩

/-! ## Segments -/

theorem segments_append_lineFeed {l : Text} (h : '\n' ∉ l) (t : Text) :
    segments (l ++ '\n' :: t) = (l ++ ['\n']) :: segments t := by
  induction l with
  | nil => simp [segments]
  | cons c rest ih =>
    obtain ⟨hc, hrest⟩ : '\n' ≠ c ∧ '\n' ∉ rest := by simpa using h
    rw [List.cons_append, segments, if_neg (Ne.symm hc), ih hrest]
    rfl

theorem segments_of_not_mem {l : Text} (h : '\n' ∉ l) (hne : l ≠ []) : segments l = [l] := by
  induction l with
  | nil => exact absurd rfl hne
  | cons c rest ih =>
    obtain ⟨hc, hrest⟩ : '\n' ≠ c ∧ '\n' ∉ rest := by simpa using h
    rw [segments, if_neg (Ne.symm hc)]
    cases rest with
    | nil => rfl
    | cons d more => rw [ih hrest (by simp)]

/-- Only the last character of a segment may be a line feed. -/
theorem not_mem_dropLast_of_mem_segments {t s : Text} (h : s ∈ segments t) : '\n' ∉ s.dropLast := by
  induction t generalizing s with
  | nil => simp [segments] at h
  | cons c rest ih =>
    unfold segments at h
    split at h
    · rcases List.mem_cons.1 h with rfl | h
      · simp
      · exact ih h
    · next hc =>
      cases hs : segments rest with
      | nil =>
        rw [hs] at h
        rw [List.mem_singleton.1 h]
        simp
      | cons first more =>
        rw [hs] at h ih
        rcases List.mem_cons.1 h with rfl | h
        · have hfirst := ih List.mem_cons_self
          cases first with
          | nil => simp
          | cons d tail =>
            rw [List.dropLast_cons_of_ne_nil (by simp)]
            simpa using ⟨Ne.symm hc, hfirst⟩
        · exact ih (List.mem_cons_of_mem _ h)

/-! ## Line ends -/

theorem dropLineEnd_of_not_mem {l : Text} (h : '\n' ∉ l) : dropLineEnd l = l := by
  unfold dropLineEnd
  split
  · next hl => exact absurd (List.mem_reverse.1 (hl ▸ List.mem_cons_self)) h
  · next hl => exact absurd (List.mem_reverse.1 (hl ▸ List.mem_cons_self)) h
  · rfl

theorem dropLineEnd_concat {l : Text} (h : l.getLast? ≠ some '\r') :
    dropLineEnd (l ++ ['\n']) = l := by
  unfold dropLineEnd
  rw [List.reverse_concat]
  split
  · next body hl =>
    have hl : l.reverse = '\r' :: body := by simpa using hl
    rw [← List.head?_reverse, hl] at h
    exact absurd rfl h
  · next body _ hl =>
    have hl : l.reverse = body := by simpa using hl
    rw [← hl, List.reverse_reverse]
  · next hl => exact absurd rfl (hl l.reverse)

theorem not_mem_dropLineEnd {s : Text} (h : '\n' ∉ s.dropLast) : '\n' ∉ dropLineEnd s := by
  unfold dropLineEnd
  split
  · next body hs =>
    rw [← List.reverse_reverse s, hs] at h
    simp_all
  · next body _ hs =>
    rw [← List.reverse_reverse s, hs] at h
    simp_all
  · next hs =>
    cases hlast : s.reverse with
    | nil => simp_all
    | cons c body =>
      rw [← List.reverse_reverse s, hlast] at h ⊢
      have hc : c ≠ '\n' := by
        rintro rfl
        exact hs body hlast
      simp_all [Ne.symm hc]

theorem not_mem_of_mem_lines {t l : Text} (h : l ∈ lines t) : '\n' ∉ l := by
  obtain ⟨s, hs, rfl⟩ := List.mem_map.1 h
  exact not_mem_dropLineEnd (not_mem_dropLast_of_mem_segments hs)

/-! ## Joined lines -/

theorem lines_append_lineFeed {l : Text} (h : IsLine l) (t : Text) :
    lines (l ++ '\n' :: t) = l :: lines t := by
  rw [lines, segments_append_lineFeed h.1, List.map_cons, dropLineEnd_concat h.2, lines]

theorem lines_of_not_mem {l : Text} (h : '\n' ∉ l) (hne : l ≠ []) : lines l = [l] := by
  rw [lines, segments_of_not_mem h hne, List.map_singleton, dropLineEnd_of_not_mem h]

theorem joinLines_cons_cons (l m : Text) (rest : List Text) :
    joinLines (l :: m :: rest) = l ++ '\n' :: joinLines (m :: rest) := by
  simp [joinLines]

/-- With a line feed behind the last line every line is found again. -/
theorem lines_joinLines_concat {ls : List Text} (h : ∀ l ∈ ls, IsLine l) (hne : ls ≠ []) :
    lines (joinLines ls ++ ['\n']) = ls := by
  induction ls with
  | nil => exact absurd rfl hne
  | cons l rest ih =>
    have hl := h l List.mem_cons_self
    cases rest with
    | nil =>
      rw [joinLines, List.intercalate_singleton, lines_append_lineFeed hl]
      rfl
    | cons m more =>
      rw [joinLines_cons_cons, List.append_assoc, List.cons_append, lines_append_lineFeed hl,
        ih (fun x hx => h x (List.mem_cons_of_mem _ hx)) (by simp)]

/-- With no line feed behind the last line every line is found again but an empty last one. -/
theorem lines_joinLines {ls : List Text} (h : ∀ l ∈ ls, IsLine l) :
    lines (joinLines ls) = if ls.getLast? = some [] then ls.dropLast else ls := by
  induction ls with
  | nil => rfl
  | cons l rest ih =>
    have hl := h l List.mem_cons_self
    cases rest with
    | nil =>
      rw [joinLines, List.intercalate_singleton]
      cases l with
      | nil => rfl
      | cons c tail => rw [lines_of_not_mem hl.1 (by simp)]; simp
    | cons m more =>
      rw [joinLines_cons_cons, lines_append_lineFeed hl,
        ih fun x hx => h x (List.mem_cons_of_mem _ hx), List.getLast?_cons_cons]
      split <;> rfl

end Mc6800.Text
