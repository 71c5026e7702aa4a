import Mc6800.Assembly.Encode
import Mc6800.Proofs.Operand.Shapes

/-!
# The two markers of hexadecimal literals

A hexadecimal literal is marked by `$` or by `0x`, and a text with the one marker in the place of
the other (`Literal.Respelled`) is cut in the same way and has the same value
(`Literal.Respelled.parse`). Its shape is the same too unless it is the shape of an absolute
address: only `$` marks one, and with `0x` it becomes that of a direct address
(`Mode.ofOperand_respelled`).
-/

set_option autoImplicit false

namespace Mc6800

/-! ## Characters in the middle of a text -/

namespace Text

theorem trimStart_append_cons {c : Char} (hc : isBlank c = false) (s t : Text) :
    trimStart (s ++ c :: t) = trimStart s ++ c :: t := by
  rw [trimStart, List.dropWhile_append, List.dropWhile_cons_of_neg (by simp [hc])]
  split
  · next h => rw [trimStart, List.isEmpty_iff.1 h, List.nil_append]
  · rfl

theorem trimEnd_append_cons {c : Char} (hc : isBlank c = false) (s t : Text) :
    trimEnd (s ++ c :: t) = s ++ c :: trimEnd t := by
  have h := trimStart_append_cons hc t.reverse s.reverse
  rw [trimStart, trimStart] at h
  rw [trimEnd, List.reverse_append, List.reverse_cons, List.append_assoc, List.singleton_append, h]
  simp [trimEnd]

theorem readDigitsFrom_eq_none {radix : Radix} {c : Char} (hc : radix.digit? c = none) {t : Text}
    (hmem : c ∈ t) (start : Nat) : readDigitsFrom radix start t = none := by
  induction t generalizing start with
  | nil => cases hmem
  | cons d rest ih =>
    unfold readDigitsFrom
    split
    · rfl
    · next n hd =>
      rcases List.mem_cons.1 hmem with rfl | hmem
      · rw [hc] at hd
        cases hd
      · exact ih hmem _

theorem readDigits?_eq_none {radix : Radix} {c : Char} (hc : radix.digit? c = none) {t : Text}
    (hmem : c ∈ t) : readDigits? radix t = none := by
  rw [readDigits?, readDigitsFrom_eq_none hc hmem, ite_self]

theorem Radix.digit?_hexadecimal_lt {c : Char} {d : Nat} (h : hexadecimal.digit? c = some d) :
    d < 16 := by
  unfold digit? at h
  split at h
  · next hdigit =>
    have hlast : c.toNat ≤ 57 := UInt32.le_iff_toNat_le.1 hdigit.2
    cases h
    have hzero : '0'.toNat = 48 := rfl
    omega
  · dsimp only at h
    split at h
    · next hlower =>
      have hlast : c.toNat ≤ 102 := UInt32.le_iff_toNat_le.1 hlower.2
      cases h
      have hzero : 'a'.toNat = 97 := rfl
      omega
    · split at h
      · next hupper =>
        have hlast : c.toNat ≤ 70 := UInt32.le_iff_toNat_le.1 hupper.2
        cases h
        have hzero : 'A'.toNat = 65 := rfl
        omega
      · cases h

theorem readDigitsFrom_hexadecimal_cons {start n : Nat} {c : Char} {t : Text}
    (h : readDigitsFrom .hexadecimal start (c :: t) = some n) :
    ∃ next, next < (start + 1) * 16 ∧ readDigitsFrom .hexadecimal next t = some n := by
  unfold readDigitsFrom at h
  split at h
  · cases h
  · next d hd =>
    have hd := Radix.digit?_hexadecimal_lt hd
    have hbase : Radix.hexadecimal.base = 16 := rfl
    exact ⟨start * 16 + d, by omega, h⟩

/-- Four digits make a number of two bytes. -/
theorem readDigits?_hexadecimal_lt {t : Text} {n : Nat} (hlength : t.length = 4)
    (h : readDigits? .hexadecimal t = some n) : n < 65536 := by
  obtain ⟨a, b, c, d, rfl⟩ : ∃ a b c d, t = [a, b, c, d] := by
    match t, hlength with
    | [a, b, c, d], _ => exact ⟨a, b, c, d, rfl⟩
  obtain ⟨n₁, h₁, h⟩ := readDigitsFrom_hexadecimal_cons h
  obtain ⟨n₂, h₂, h⟩ := readDigitsFrom_hexadecimal_cons h
  obtain ⟨n₃, h₃, h⟩ := readDigitsFrom_hexadecimal_cons h
  obtain ⟨n₄, h₄, h⟩ := readDigitsFrom_hexadecimal_cons h
  cases h
  omega

@[simp] theorem Radix.digit?_dollar (radix : Radix) : radix.digit? '$' = none := by
  cases radix <;> rfl

@[simp] theorem Radix.digit?_x (radix : Radix) : radix.digit? 'x' = none := by
  cases radix <;> rfl

end Text

/-! ## Values -/

namespace Literal

/-- The second text is the first with the marker `0x` in the place of a marker `$`. -/
def Respelled (s t : Text) : Prop :=
  ∃ before after, s = before ++ '$' :: after ∧ t = before ++ '0' :: 'x' :: after

/-- Of the text behind a marker no more than two characters are missing. -/
theorem mem_splitRadix {t : Text} {c : Char}
    (h : c ∈ t.drop 2 ∨ c ∈ t.drop 1 ∧ c ≠ 'x' ∧ c ≠ 'X') : c ∈ (splitRadix t).2 := by
  unfold splitRadix
  split
  · next rest =>
    rcases h with h | ⟨h, -⟩
    · exact List.mem_of_mem_drop h
    · exact h
  · next rest =>
    rcases h with h | ⟨h, hx, -⟩
    · exact h
    · exact (List.mem_cons.1 h).resolve_left hx
  · next rest =>
    rcases h with h | ⟨h, -, hx⟩
    · exact h
    · exact (List.mem_cons.1 h).resolve_left hx
  · rcases h with h | ⟨h, -⟩
    · exact List.mem_of_mem_drop h
    · exact List.mem_of_mem_drop h

namespace Respelled

variable {s t : Text}

theorem ne_nil (h : Respelled s t) : s ≠ [] ∧ t ≠ [] := by
  obtain ⟨before, after, rfl, rfl⟩ := h
  exact ⟨by simp, by simp⟩

theorem mem (h : Respelled s t) {c : Char} (hc : c ∈ t) : c ∈ s ∨ c = '0' ∨ c = 'x' := by
  obtain ⟨before, after, rfl, rfl⟩ := h
  simp only [List.mem_append, List.mem_cons] at hc ⊢
  rcases hc with hc | rfl | rfl | hc
  · exact .inl (.inl hc)
  · exact .inr (.inl rfl)
  · exact .inr (.inr rfl)
  · exact .inl (.inr (.inr hc))

theorem isWord (h : Respelled s t) (hs : Text.IsWord s) : Text.IsWord t := by
  refine ⟨h.ne_nil.2, fun c hc => ?_⟩
  rcases h.mem hc with hc | rfl | rfl
  · exact hs.2 c hc
  · decide
  · decide

theorem semicolon_not_mem (h : Respelled s t) (hs : ';' ∉ s) : ';' ∉ t := by
  intro hc
  rcases h.mem hc with hc | hc | hc
  · exact hs hc
  · exact absurd hc (by decide)
  · exact absurd hc (by decide)

theorem isTrimmed (h : Respelled s t) (hs : Text.IsTrimmed s) : Text.IsTrimmed t := by
  obtain ⟨before, after, rfl, rfl⟩ := h
  obtain ⟨⟨c, hc, hcb⟩, ⟨d, hd, hdb⟩⟩ := hs
  refine ⟨?_, ?_⟩
  · cases before with
    | nil => exact ⟨'0', rfl, by decide⟩
    | cons e rest => exact ⟨c, hc, hcb⟩
  · cases after with
    | nil => exact ⟨'x', by simp, by decide⟩
    | cons e rest => exact ⟨d, by simpa using hd, hdb⟩

theorem trim (h : Respelled s t) : Respelled (Text.trim s) (Text.trim t) := by
  obtain ⟨before, after, rfl, rfl⟩ := h
  refine ⟨Text.trimStart before, Text.trimEnd after, ?_, ?_⟩
  · rw [Text.trim, Text.trimStart_append_cons (by decide), Text.trimEnd_append_cons (by decide)]
  · have hx := Text.trimEnd_append_cons (c := 'x') (by decide) [] after
    rw [List.nil_append, List.nil_append] at hx
    rw [Text.trim, Text.trimStart_append_cons (by decide), Text.trimEnd_append_cons (by decide), hx]

theorem dropMarker (h : Respelled s t) {marker : Char} (hdollar : marker ≠ '$')
    (hzero : marker ≠ '0') : Respelled (Text.dropMarker marker s) (Text.dropMarker marker t) := by
  obtain ⟨before, after, rfl, rfl⟩ := h
  cases before with
  | nil =>
    exact ⟨[], after, if_neg (Ne.symm hdollar), if_neg (Ne.symm hzero)⟩
  | cons c rest =>
    by_cases hc : c = marker
    · exact ⟨rest, after, if_pos hc, if_pos hc⟩
    · exact ⟨c :: rest, after, if_neg hc, if_neg hc⟩

theorem splitSign (h : Respelled s t) :
    (Literal.splitSign t).1 = (Literal.splitSign s).1 ∧
      Respelled (Literal.splitSign s).2 (Literal.splitSign t).2 := by
  obtain ⟨before, after, rfl, rfl⟩ := h
  cases before with
  | nil => exact ⟨rfl, [], after, rfl, rfl⟩
  | cons c rest =>
    by_cases hc : c = '-'
    · subst hc
      exact ⟨rfl, rest, after, rfl, rfl⟩
    · have hsign : ∀ u, Literal.splitSign (c :: u) = (false, c :: u) := fun u => by
        simp [Literal.splitSign, hc]
      simp only [List.cons_append, hsign]
      exact ⟨trivial, c :: rest, after, rfl, rfl⟩

/-- Behind the marker stand the same digits. A marker further on is no marker, and no digit. -/
theorem readDigits? (h : Respelled s t) :
    Text.readDigits? (splitRadix t).1 (splitRadix t).2 =
      Text.readDigits? (splitRadix s).1 (splitRadix s).2 := by
  obtain ⟨before, after, rfl, rfl⟩ := h
  cases before with
  | nil => rfl
  | cons c rest =>
    have hx : 'x' ∈ (splitRadix (c :: rest ++ '0' :: 'x' :: after)).2 :=
      mem_splitRadix (.inl (by cases rest <;> simp))
    have hdollar : '$' ∈ (splitRadix (c :: rest ++ '$' :: after)).2 :=
      mem_splitRadix (.inr ⟨by simp, by decide, by decide⟩)
    rw [Text.readDigits?_eq_none (Text.Radix.digit?_x _) hx,
      Text.readDigits?_eq_none (Text.Radix.digit?_dollar _) hdollar]

/-- A literal has the same value with either marker. -/
theorem parse (h : Respelled s t) : Literal.parse t = Literal.parse s := by
  have hmarker : Respelled (Text.dropMarker immediateMarker (Text.trim s))
      (Text.dropMarker immediateMarker (Text.trim t)) :=
    h.trim.dropMarker (by decide) (by decide)
  obtain ⟨hsign, hunsigned⟩ := hmarker.splitSign
  simp only [Literal.parse, hsign, hunsigned.readDigits?]

theorem value? (h : Respelled s t) : Literal.value? t = Literal.value? s := by
  rw [Literal.value?, h.parse, Literal.value?]

end Respelled

end Literal

/-! ## Pieces of operands -/

namespace Operand

variable {s t : Text}

open Literal (Respelled)

theorem dropIndex?_append (s : Text) {t : Text} (ht : 2 ≤ t.length) :
    dropIndex? (s ++ t) = (dropIndex? t).map (s ++ ·) := by
  rw [← List.length_reverse] at ht
  unfold dropIndex?
  rw [List.reverse_append]
  generalize t.reverse = reversed at ht
  rcases reversed with _ | ⟨x, _ | ⟨comma, rest⟩⟩
  · simp at ht
  · simp at ht
  · by_cases hcomma : comma = ','
    · subst hcomma
      by_cases hx : x = 'X' ∨ x = 'x'
      · simp [hx]
      · simp [hx]
    · simp [hcomma]

theorem dropIndex?_append_pair (s : Text) {c : Char} (hc : c ≠ ',') (x : Char) :
    dropIndex? (s ++ [c, x]) = none := by
  simp [dropIndex?, hc]

theorem dropIndex?_append_dollar (s : Text) : dropIndex? (s ++ ['$']) = none := by
  unfold dropIndex?
  rw [List.reverse_append]
  cases s.reverse with
  | nil => rfl
  | cons c rest =>
    by_cases hc : c = ','
    · simp [hc]
    · simp [hc]

/-- An index register stands behind both of them or behind neither. -/
theorem respelled_dropIndex? (h : Respelled s t) :
    (dropIndex? s = none ∧ dropIndex? t = none) ∨
      ∃ s' t', dropIndex? s = some s' ∧ dropIndex? t = some t' ∧ Respelled s' t' := by
  obtain ⟨before, after, rfl, rfl⟩ := h
  -- An index register is the last two characters, so it has no room unless two stand behind.
  rcases after with _ | ⟨x, _ | ⟨y, rest⟩⟩
  · exact .inl ⟨dropIndex?_append_dollar _, dropIndex?_append_pair _ (by decide) _⟩
  · have ht := dropIndex?_append_pair (before ++ ['0']) (c := 'x') (by decide) x
    rw [List.append_assoc] at ht
    exact .inl ⟨dropIndex?_append_pair _ (by decide) _, ht⟩
  · have hlong : 2 ≤ (x :: y :: rest).length := by simp
    have hs := dropIndex?_append (before ++ ['$']) hlong
    have ht := dropIndex?_append (before ++ ['0', 'x']) hlong
    simp only [List.append_assoc, List.cons_append, List.nil_append] at hs ht
    rw [hs, ht]
    cases dropIndex? (x :: y :: rest) with
    | none => exact .inl ⟨rfl, rfl⟩
    | some core => exact .inr ⟨_, _, rfl, rfl, before, core, rfl, rfl⟩

theorem respelled_core (mode : Mode) (h : Respelled s t) :
    Respelled (core mode s) (core mode t) := by
  cases mode with
  | immediate | immediate16 => exact h.dropMarker (by decide) (by decide)
  | indexed =>
    rcases respelled_dropIndex? h with ⟨hs, ht⟩ | ⟨s', t', hs, ht, h'⟩
    · rw [core, core, hs, ht]
      exact h.trim
    · rw [core, core, hs, ht]
      exact h'.trim
  | direct | extended | relative | inherent => exact h

/-- The text of an operand that is looked up among the labels. -/
def subject (t : Text) : Text := core (Mode.ofOperand (some t)) t

theorem subject_of_spells {t : Text} {address : Word} (h : Spells t address) : subject t = t := by
  rw [subject, h.ofOperand]
  rfl

/-- It is the same in every mode that an operand of this shape may be meant in. -/
theorem core_of_mem_readings {shape mode : Mode} (h : mode ∈ shape.readings) (t : Text) :
    core mode t = core shape t := by
  cases shape <;> simp only [Mode.readings, List.mem_cons, List.not_mem_nil, or_false] at h
  all_goals rcases h with rfl | rfl <;> rfl

/-! ## Shapes -/

theorem isAddress_eq_false {t : Text} {c : Char} (hc : ∀ radix : Text.Radix, radix.digit? c = none)
    (hmem : c ∈ t.tail) : isAddress t = false := by
  unfold isAddress
  split
  · next digits =>
    have hmem : c ∈ digits := hmem
    rw [Text.readDigits?_eq_none (hc _) hmem, Option.isSome_none, Bool.and_false]
  · rw [Text.readDigits?_eq_none (hc _) (List.mem_of_mem_tail hmem), Option.isSome_none,
      Bool.and_false]

theorem isInteger_eq_false {t : Text} {c : Char} (hc : ∀ radix : Text.Radix, radix.digit? c = none)
    (hmem : c ∈ t) (hne : c ≠ '-') : isInteger t = false := by
  have hdrop : c ∈ Text.dropMarker '-' t := by
    cases t with
    | nil => cases hmem
    | cons d rest =>
      rw [Text.dropMarker]
      split
      · next hd => exact (List.mem_cons.1 hmem).resolve_left (hd ▸ hne)
      · exact hmem
  rw [isInteger, Text.readDigits?_eq_none (hc _) hdrop, Option.isSome_none]

theorem isName_eq_false {t : Text} {c : Char} (hc : isNameChar c = false) (hmem : c ∈ t) :
    isName t = false := by
  cases h : isName t with
  | false => rfl
  | true =>
    rw [isNameChar_of_isName h c hmem] at hc
    cases hc

/-- Four digits behind the marker `$` are an address. -/
theorem exists_spells_of_isAddress {t : Text} (hmem : '$' ∈ t) (h : isAddress t = true) :
    ∃ address, Spells t address := by
  unfold isAddress at h
  split at h
  · next digits =>
    obtain ⟨hlength, hread⟩ := Bool.and_eq_true_iff.1 h
    obtain ⟨n, hn⟩ := Option.isSome_iff_exists.1 hread
    have hlength : digits.length = 4 := beq_iff_eq.1 hlength
    have hbound := Text.readDigits?_hexadecimal_lt hlength hn
    refine ⟨UInt16.ofNat n, digits, rfl, hlength, ?_⟩
    rw [hn, UInt16.toNat_ofNat', Nat.mod_eq_of_lt hbound]
  · rw [Text.readDigits?_eq_none (Text.Radix.digit?_dollar _) hmem] at h
    simp at h

/-- The only marker `$` of an address is its first character. -/
theorem eq_nil_of_spells {before after : Text} {address : Word}
    (h : Spells (before ++ '$' :: after) address) : before = [] := by
  obtain ⟨digits, hdigits, -, hread⟩ := h
  cases before with
  | nil => rfl
  | cons c rest =>
    obtain ⟨-, hrest⟩ := List.cons.inj hdigits
    rw [Text.readDigits?_eq_none (Text.Radix.digit?_dollar _) (by simp [← hrest])] at hread
    cases hread

end Operand

namespace Mode

theorem ofOperand_of_immediateMarker {t : Text}
    (htrim : Text.IsTrimmed (Literal.immediateMarker :: t)) :
    ofOperand (some (Literal.immediateMarker :: t)) =
      match Literal.value? t with
      | some v => if Literal.FitsByte v then .immediate else .immediate16
      | none => .immediate := by
  rw [ofOperand, Option.getD_some, Text.trim_of_isTrimmed htrim]
  exact if_pos rfl

theorem ofOperand_of_not_reference {t : Text} (htrim : Text.IsTrimmed t)
    (hmarker : t.head? ≠ some Literal.immediateMarker) (hinteger : Operand.isInteger t = false)
    (hname : Operand.isName t = false) :
    ofOperand (some t) = if (Operand.dropIndex? t).isSome then .indexed
      else if Operand.isAddress t then .extended else .direct := by
  rw [ofOperand, Option.getD_some, Text.trim_of_isTrimmed htrim]
  cases t with
  | nil => exact absurd rfl htrim.ne_nil
  | cons c rest =>
    have hc : c ≠ Literal.immediateMarker := fun hc => hmarker (by rw [hc]; rfl)
    dsimp only
    rw [if_neg hc, hinteger, hname]
    rfl

/-- With a marker `$` only the digits of an address are meant as an address or a branch target. -/
theorem isAddress_of_ofOperand {t : Text} (htrim : Text.IsTrimmed t) (hmem : '$' ∈ t)
    (h : ofOperand (some t) = .relative ∨ ofOperand (some t) = .extended) :
    Operand.isAddress t = true := by
  by_cases hmarker : t.head? = some Literal.immediateMarker
  · obtain ⟨rest, rfl⟩ := List.head?_eq_some_iff.1 hmarker
    rw [ofOperand_of_immediateMarker htrim] at h
    split at h
    · split at h <;> simp at h
    · simp at h
  · rw [ofOperand_of_not_reference htrim hmarker
      (Operand.isInteger_eq_false Text.Radix.digit?_dollar hmem (by decide))
      (Operand.isName_eq_false (by decide) hmem)] at h
    split at h
    · simp at h
    · split at h
      · assumption
      · simp at h

/-- The marker `0x` in the place of `$` leaves the shape of an operand as it is, unless that is the
shape of an absolute address. -/
theorem ofOperand_respelled {before after : Text}
    (hplace : ∀ c ∈ before.getLast?, Operand.isNameChar c = false)
    (htrim : Text.IsTrimmed (before ++ '$' :: after)) :
    ofOperand (some (before ++ '0' :: 'x' :: after)) =
      if ofOperand (some (before ++ '$' :: after)) = .extended then .direct
      else ofOperand (some (before ++ '$' :: after)) := by
  have h : Literal.Respelled (before ++ '$' :: after) (before ++ '0' :: 'x' :: after) :=
    ⟨before, after, rfl, rfl⟩
  have htrim' := h.isTrimmed htrim
  by_cases hmarker : before.head? = some Literal.immediateMarker
  · -- Behind an immediate marker only the value counts.
    obtain ⟨rest, rfl⟩ : ∃ rest, before = Literal.immediateMarker :: rest :=
      List.head?_eq_some_iff.1 hmarker
    have hrest : Literal.Respelled (rest ++ '$' :: after) (rest ++ '0' :: 'x' :: after) :=
      ⟨rest, after, rfl, rfl⟩
    rw [List.cons_append] at htrim htrim'
    have hne :
        ofOperand (some (Literal.immediateMarker :: (rest ++ '$' :: after))) ≠ .extended := by
      intro hextended
      have haddress := isAddress_of_ofOperand htrim (by simp) (.inr hextended)
      rw [Operand.isAddress_eq_false Text.Radix.digit?_dollar (by simp)] at haddress
      cases haddress
    rw [List.cons_append, List.cons_append, if_neg hne, ofOperand_of_immediateMarker htrim,
      ofOperand_of_immediateMarker htrim', hrest.value?]
  · have hindex : (Operand.dropIndex? (before ++ '0' :: 'x' :: after)).isSome =
        (Operand.dropIndex? (before ++ '$' :: after)).isSome := by
      rcases Operand.respelled_dropIndex? h with ⟨hs, ht⟩ | ⟨s', t', hs, ht, -⟩
      · rw [hs, ht]
      · rw [hs, ht]
        rfl
    have haddress : Operand.isAddress (before ++ '0' :: 'x' :: after) = false :=
      Operand.isAddress_eq_false Text.Radix.digit?_x (by cases before <;> simp)
    have hname : Operand.isName (before ++ '0' :: 'x' :: after) = false := by
      cases hlast : before.getLast? with
      | none =>
        rw [List.getLast?_eq_none_iff.1 hlast]
        rfl
      | some c =>
        exact Operand.isName_eq_false (hplace c hlast)
          (List.mem_append_left _ (List.mem_of_getLast? hlast))
    have hhead : ∀ {c : Char} {rest : Text}, c ≠ Literal.immediateMarker →
        (before ++ c :: rest).head? ≠ some Literal.immediateMarker := by
      intro c rest hc
      cases before with
      | nil => simpa using hc
      | cons d more => exact hmarker
    rw [ofOperand_of_not_reference htrim' (hhead (by decide))
        (Operand.isInteger_eq_false Text.Radix.digit?_x (by simp) (by decide)) hname,
      ofOperand_of_not_reference htrim (hhead (by decide))
        (Operand.isInteger_eq_false Text.Radix.digit?_dollar (by simp) (by decide))
        (Operand.isName_eq_false (c := '$') (by decide) (by simp)), hindex, haddress]
    cases (Operand.dropIndex? (before ++ '$' :: after)).isSome with
    | true => rfl
    | false => cases Operand.isAddress (before ++ '$' :: after) <;> rfl

end Mode

end Mc6800
