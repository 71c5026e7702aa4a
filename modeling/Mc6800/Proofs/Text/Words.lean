import Mc6800.Proofs.Text.Case
import Mc6800.Proofs.Text.Lines

/-!
# Trimmed texts and words

A text with no blank at either end (`Text.IsTrimmed`) is left alone by `trim`, and is found again as
a line unless it holds a line feed. Words joined by spaces are read as themselves
(`words_intercalate`), so pairs of digits are read as the bytes that they stand for.
-/

set_option autoImplicit false

namespace Mc6800.Text

/-- Not empty, and no blank at either end. -/
def IsTrimmed (t : Text) : Prop :=
  (∃ c ∈ t.head?, isBlank c = false) ∧ ∃ c ∈ t.getLast?, isBlank c = false

/-- Nothing but blanks. -/
def AllBlank (t : Text) : Prop := ∀ c ∈ t, isBlank c = true

/-- Not empty, and no blank in it. -/
def IsWord (t : Text) : Prop := t ≠ [] ∧ ∀ c ∈ t, isBlank c = false

theorem isWord_of_all {t : Text} (hne : t ≠ []) (h : t.all (!isBlank ·) = true) : IsWord t :=
  ⟨hne, fun c hc => by simpa using List.all_eq_true.1 h c hc⟩

instance (t : Text) : Decidable (AllBlank t) :=
  decidable_of_iff (t.all isBlank = true) List.all_eq_true

instance (t : Text) : Decidable (IsWord t) :=
  decidable_of_iff (t ≠ [] ∧ t.all (!isBlank ·) = true)
    ⟨fun h => isWord_of_all h.1 h.2, fun h => ⟨h.1, by simpa using h.2⟩⟩

theorem IsWord.isTrimmed {t : Text} (h : IsWord t) : IsTrimmed t := by
  obtain ⟨hne, hblank⟩ := h
  exact ⟨⟨t.head hne, List.head?_eq_some_head hne, hblank _ (List.head_mem hne)⟩,
    ⟨t.getLast hne, List.getLast?_eq_some_getLast hne, hblank _ (List.getLast_mem hne)⟩⟩

theorem IsTrimmed.ne_nil {t : Text} (h : IsTrimmed t) : t ≠ [] := by
  rintro rfl
  obtain ⟨⟨c, hc, -⟩, -⟩ := h
  cases hc

/-- The ends alone decide whether a text is trimmed. -/
theorem IsTrimmed.append {s t : Text} (hs : IsTrimmed s) (m : Text) (ht : IsTrimmed t) :
    IsTrimmed (s ++ m ++ t) := by
  obtain ⟨⟨c, hc, hcb⟩, -⟩ := hs
  obtain ⟨-, ⟨d, hd, hdb⟩⟩ := ht
  refine ⟨⟨c, ?_, hcb⟩, ⟨d, ?_, hdb⟩⟩
  · rw [List.append_assoc, List.head?_append, Option.mem_def.1 hc]; rfl
  · rw [List.getLast?_append, Option.mem_def.1 hd]; rfl

theorem trim_of_isTrimmed {t : Text} (h : IsTrimmed t) : trim t = t := by
  obtain ⟨⟨c, hc, hcb⟩, ⟨d, hd, hdb⟩⟩ := h
  have hstart : trimStart t = t := by
    obtain ⟨rest, rfl⟩ := List.head?_eq_some_iff.1 hc
    rw [trimStart, List.dropWhile_cons_of_neg (by simp [hcb])]
  have hend : trimEnd t = t := by
    obtain ⟨body, rfl⟩ := List.getLast?_eq_some_iff.1 hd
    rw [trimEnd, List.reverse_concat, List.dropWhile_cons_of_neg (by simp [hdb])]
    simp
  rw [trim, hstart, hend]

theorem IsTrimmed.isLine {t : Text} (h : IsTrimmed t) (hn : '\n' ∉ t) : IsLine t := by
  refine ⟨hn, fun hr => ?_⟩
  obtain ⟨-, ⟨d, hd, hdb⟩⟩ := h
  rw [Option.mem_def.1 hd, Option.some.injEq] at hr
  subst hr
  exact absurd hdb (by decide)

/-! ## Characters -/

/-- The characters of ASCII that leave a mark are not blank. -/
theorem not_isBlank_of_visible {c : Char} (h : 33 ≤ c.val.toNat ∧ c.val.toNat ≤ 126) :
    isBlank c = false := by
  simp only [isBlank, Bool.or_eq_false_iff, Bool.and_eq_false_iff, decide_eq_false_iff_not,
    beq_eq_false_iff_ne]
  omega

theorem IsTrimmed.upper {t : Text} (h : IsTrimmed t) : IsTrimmed (upper t) := by
  obtain ⟨⟨c, hc, hcb⟩, ⟨d, hd, hdb⟩⟩ := h
  refine ⟨⟨c.toUpper, ?_, by rw [isBlank_toUpper, hcb]⟩, ⟨d.toUpper, ?_, by
    rw [isBlank_toUpper, hdb]⟩⟩
  · rw [Text.upper, List.head?_map, Option.mem_def.1 hc]; rfl
  · rw [Text.upper, List.getLast?_map, Option.mem_def.1 hd]; rfl

/-! ## Words -/

/-- A word is the first one of a text that goes on with a blank. -/
theorem words_append_blank {w : Text} (h : IsWord w) {b : Char} (hb : isBlank b = true) (t : Text) :
    words (w ++ b :: t) = w :: words t := by
  rw [words, List.splitOnP_append_cons_of_forall_mem h.2 b hb, List.filter_cons_of_pos, words]
  simp [h.1]

theorem words_of_isWord {w : Text} (h : IsWord w) : words w = [w] := by
  rw [words, List.splitOnP_eq_singleton h.2]
  simp [h.1]

/-- Words with a space between them are read as themselves. -/
theorem words_intercalate {ws : List Text} (h : ∀ w ∈ ws, IsWord w) (hne : ws ≠ []) :
    words ([' '].intercalate ws) = ws := by
  induction ws with
  | nil => exact absurd rfl hne
  | cons w rest ih =>
    have hw := h w List.mem_cons_self
    cases rest with
    | nil => rw [List.intercalate_singleton, words_of_isWord hw]
    | cons v more =>
      rw [List.intercalate_cons_cons, List.append_assoc, List.singleton_append,
        words_append_blank hw (by decide),
        ih (fun x hx => h x (List.mem_cons_of_mem _ hx)) (by simp)]

theorem isTrimmed_intercalate {ws : List Text} (h : ∀ w ∈ ws, IsWord w) (hne : ws ≠ []) :
    IsTrimmed ([' '].intercalate ws) := by
  induction ws with
  | nil => exact absurd rfl hne
  | cons w rest ih =>
    have hw := (h w List.mem_cons_self).isTrimmed
    cases rest with
    | nil => rwa [List.intercalate_singleton]
    | cons v more =>
      rw [List.intercalate_cons_cons]
      exact hw.append _ (ih (fun x hx => h x (List.mem_cons_of_mem _ hx)) (by simp))

theorem IsWord.lineFeed_not_mem {w : Text} (h : IsWord w) : '\n' ∉ w := fun hn =>
  absurd (h.2 _ hn) (by decide)

theorem lineFeed_not_mem_intercalate {ws : List Text} (h : ∀ w ∈ ws, IsWord w) :
    '\n' ∉ [' '].intercalate ws := by
  induction ws with
  | nil => simp
  | cons w rest ih =>
    have hw := (h w List.mem_cons_self).lineFeed_not_mem
    cases rest with
    | nil => rwa [List.intercalate_singleton]
    | cons v more =>
      have hrest := ih fun x hx => h x (List.mem_cons_of_mem _ hx)
      rw [List.intercalate_cons_cons]
      simp only [List.mem_append, not_or]
      exact ⟨⟨hw, by decide⟩, hrest⟩

/-! ## Pairs of digits -/

theorem isWord_ofByte (b : Byte) : IsWord (ofByte b) := by
  have h : ∀ n : Fin 256, (ofByte (UInt8.ofNat n.val)).all (!isBlank ·) = true := by
    decide +kernel
  have hb := h ⟨b.toNat, b.toNat_lt⟩
  exact isWord_of_all (by simp [ofByte]) (by simpa using hb)

theorem isWord_of_mem_map_ofByte {bs : List Byte} {w : Text} (h : w ∈ bs.map ofByte) :
    IsWord w := by
  obtain ⟨b, -, rfl⟩ := List.mem_map.1 h
  exact isWord_ofByte b

theorem words_ofBytes {bs : List Byte} (hne : bs ≠ []) : words (ofBytes bs) = bs.map ofByte :=
  words_intercalate (fun _ => isWord_of_mem_map_ofByte) (by simpa using hne)

theorem isTrimmed_ofBytes {bs : List Byte} (hne : bs ≠ []) : IsTrimmed (ofBytes bs) :=
  isTrimmed_intercalate (fun _ => isWord_of_mem_map_ofByte) (by simpa using hne)

theorem isLine_ofBytes {bs : List Byte} (hne : bs ≠ []) : IsLine (ofBytes bs) :=
  (isTrimmed_ofBytes hne).isLine
    (lineFeed_not_mem_intercalate fun _ => isWord_of_mem_map_ofByte)

end Mc6800.Text
