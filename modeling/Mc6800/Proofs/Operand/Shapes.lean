import Mc6800.Operand.Shape
import Mc6800.Proofs.Text.Words

/-!
# Names and addresses as operands

Two of the shapes that an operand may have. A name (`Operand.isName`) is meant as a branch target
first, and the marked digits of an address (`Operand.Spells`) as an absolute address. Both are words
without a semicolon, so they are read in the same places, and the digits stand for the address
wherever no label is spelled like them.
-/

set_option autoImplicit false

namespace Mc6800

namespace Operand

/-! ## Characters -/

theorem isAlpha_iff {c : Char} :
    c.isAlpha = true ↔
      (65 ≤ c.val.toNat ∧ c.val.toNat ≤ 90) ∨ (97 ≤ c.val.toNat ∧ c.val.toNat ≤ 122) := by
  have hupper : c.isUpper = true ↔ 65 ≤ c.val.toNat ∧ c.val.toNat ≤ 90 := decide_eq_true_iff
  have hlower : c.isLower = true ↔ 97 ≤ c.val.toNat ∧ c.val.toNat ≤ 122 :=
    Bool.and_eq_true_iff.trans (and_congr decide_eq_true_iff decide_eq_true_iff)
  exact Bool.or_eq_true_iff.trans (or_congr hupper hlower)

theorem isDigit_iff {c : Char} : c.isDigit = true ↔ 48 ≤ c.val.toNat ∧ c.val.toNat ≤ 57 :=
  Bool.and_eq_true_iff.trans (and_congr decide_eq_true_iff decide_eq_true_iff)

theorem isNameChar_iff {c : Char} :
    isNameChar c = true ↔ c.isAlpha = true ∨ c.isDigit = true ∨ c = '_' := by
  rw [isNameChar, Bool.or_eq_true, beq_iff_eq, ← or_assoc]
  exact or_congr Bool.or_eq_true_iff Iff.rfl

theorem not_isBlank_of_isNameChar {c : Char} (h : isNameChar c = true) :
    Text.isBlank c = false := by
  rw [isNameChar_iff, isAlpha_iff, isDigit_iff] at h
  rcases h with (h | h) | h | rfl
  · exact Text.not_isBlank_of_visible (by omega)
  · exact Text.not_isBlank_of_visible (by omega)
  · exact Text.not_isBlank_of_visible (by omega)
  · decide

theorem not_mem_of_isNameChar {t : Text} (h : ∀ c ∈ t, isNameChar c = true) :
    ',' ∉ t ∧ ';' ∉ t :=
  ⟨fun hc => absurd (h _ hc) (by decide), fun hc => absurd (h _ hc) (by decide)⟩

/-- A letter or an underscore is no decimal digit. -/
theorem decimal_digit?_eq_none {c : Char} (h : (c.isAlpha || c == '_') = true) :
    Text.Radix.decimal.digit? c = none := by
  rw [Bool.or_eq_true, isAlpha_iff, beq_iff_eq] at h
  unfold Text.Radix.digit?
  split
  · next hdigit =>
    have hnine : c.val.toNat ≤ 57 := UInt32.le_iff_toNat_le.1 hdigit.2
    rcases h with (h | h) | rfl
    · omega
    · omega
    · exact absurd hnine (by decide)
  · rfl

theorem isNameChar_of_digit? {radix : Text.Radix} {c : Char} {d : Nat}
    (h : radix.digit? c = some d) : isNameChar c = true := by
  rw [isNameChar_iff, isAlpha_iff, isDigit_iff]
  unfold Text.Radix.digit? at h
  split at h
  · next hdigit => exact .inr (.inl hdigit)
  · cases radix with
    | decimal => cases h
    | hexadecimal =>
      dsimp only at h
      split at h
      · next hlower =>
        have hlast : c.val.toNat ≤ 102 := UInt32.le_iff_toNat_le.1 hlower.2
        exact .inl (.inr ⟨hlower.1, by omega⟩)
      · split at h
        · next hupper =>
          have hlast : c.val.toNat ≤ 70 := UInt32.le_iff_toNat_le.1 hupper.2
          exact .inl (.inl ⟨hupper.1, by omega⟩)
        · cases h

theorem isNameChar_of_readDigitsFrom {radix : Text.Radix} {start n : Nat} {t : Text}
    (h : Text.readDigitsFrom radix start t = some n) : ∀ c ∈ t, isNameChar c = true := by
  induction t generalizing start with
  | nil => simp
  | cons c rest ih =>
    unfold Text.readDigitsFrom at h
    split at h
    · cases h
    · next d hd => exact List.forall_mem_cons.2 ⟨isNameChar_of_digit? hd, ih h⟩

theorem isNameChar_of_readDigits? {radix : Text.Radix} {n : Nat} {t : Text}
    (h : Text.readDigits? radix t = some n) : ∀ c ∈ t, isNameChar c = true := by
  unfold Text.readDigits? at h
  split at h
  · cases h
  · exact isNameChar_of_readDigitsFrom h

theorem dropIndex?_of_not_mem {t : Text} (h : ',' ∉ t) : dropIndex? t = none := by
  unfold dropIndex?
  split
  · next x rest hreverse =>
    have hmem : ',' ∈ t.reverse := by simp [hreverse]
    exact absurd (List.mem_reverse.1 hmem) h
  · rfl

/-! ## Names -/

variable {name spelling : Text} {address : Word}

theorem isNameChar_of_isName (h : isName name = true) : ∀ c ∈ name, isNameChar c = true := by
  cases name with
  | nil => cases h
  | cons c rest =>
    simp only [isName, Bool.and_eq_true, Bool.or_eq_true, beq_iff_eq, List.all_eq_true] at h
    refine List.forall_mem_cons.2 ⟨?_, h.2⟩
    rcases h.1 with halpha | rfl
    · exact isNameChar_iff.2 (.inl halpha)
    · decide

theorem isWord_of_isName (h : isName name = true) : Text.IsWord name := by
  refine ⟨?_, fun c hc => not_isBlank_of_isNameChar (isNameChar_of_isName h c hc)⟩
  rintro rfl
  cases h

/-- The shape of a name is that of a branch target. -/
theorem ofOperand_of_isName (h : isName name = true) : Mode.ofOperand (some name) = .relative := by
  have hcomma := (not_mem_of_isNameChar (isNameChar_of_isName h)).1
  have htrim : Text.trim name = name := Text.trim_of_isTrimmed (isWord_of_isName h).isTrimmed
  cases name with
  | nil => cases h
  | cons c rest =>
    have hc : (c.isAlpha || c == '_') = true := (Bool.and_eq_true_iff.1 h).1
    have hmarker : c ≠ Literal.immediateMarker := by
      rintro rfl
      exact absurd hc (by decide)
    have hdollar : c ≠ '$' := by
      rintro rfl
      exact absurd hc (by decide)
    have haddress : isAddress (c :: rest) = false := by
      have hdecimal : Text.readDigits? .decimal (c :: rest) = none := by
        simp [Text.readDigits?, Text.readDigitsFrom, decimal_digit?_eq_none hc]
      unfold isAddress
      split
      · next hhead => exact absurd (List.cons.inj hhead).1 hdollar
      · rw [hdecimal, Option.isSome_none, Bool.and_false]
    simp [Mode.ofOperand, htrim, hmarker, dropIndex?_of_not_mem hcomma, haddress, h]

/-! ## Addresses -/

/-- The text is the address: marked as hexadecimal, and with four digits in either case. -/
def Spells (spelling : Text) (address : Word) : Prop :=
  ∃ digits, spelling = '$' :: digits ∧ digits.length = 4 ∧
    Text.readDigits? .hexadecimal digits = some address.toNat

theorem readDigitsFrom_hexDigit {n : Nat} (hn : n < 16) (start : Nat) (t : Text) :
    Text.readDigitsFrom .hexadecimal start (Text.hexDigit n :: t) =
      Text.readDigitsFrom .hexadecimal (start * 16 + n) t := by
  have hdigit : ∀ n < 16, Text.Radix.hexadecimal.digit? (Text.hexDigit n) = some n := by decide
  rw [Text.readDigitsFrom, hdigit n hn]
  rfl

theorem readDigitsFrom_ofByte (b : Byte) (start : Nat) (t : Text) :
    Text.readDigitsFrom .hexadecimal start (Text.ofByte b ++ t) =
      Text.readDigitsFrom .hexadecimal (start * 256 + b.toNat) t := by
  have hb : b.toNat < 256 := b.toNat_lt
  rw [Text.ofByte, List.cons_append, List.cons_append, List.nil_append,
    readDigitsFrom_hexDigit (by omega), readDigitsFrom_hexDigit (by omega)]
  congr 1
  omega

theorem spells_ofWord (w : Word) : Spells ('$' :: Text.ofWord w) w := by
  have hw : w.toNat < 65536 := w.toNat_lt
  have hread : Text.readDigitsFrom .hexadecimal 0 (Text.ofByte w.high ++ Text.ofByte w.low) =
      some ((0 * 256 + w.high.toNat) * 256 + w.low.toNat) := by
    rw [readDigitsFrom_ofByte, ← List.append_nil (Text.ofByte w.low), readDigitsFrom_ofByte]
    rfl
  refine ⟨Text.ofWord w, rfl, rfl, hread.trans ?_⟩
  simp only [Word.high, Word.low, UInt8.toNat_ofNat', Option.some.injEq]
  omega

theorem Spells.isWord (h : Spells spelling address) : Text.IsWord spelling := by
  obtain ⟨digits, rfl, -, hread⟩ := h
  refine ⟨by simp, List.forall_mem_cons.2 ⟨by decide, fun c hc => ?_⟩⟩
  exact not_isBlank_of_isNameChar (isNameChar_of_readDigits? hread c hc)

theorem Spells.not_mem (h : Spells spelling address) : ',' ∉ spelling ∧ ';' ∉ spelling := by
  obtain ⟨digits, rfl, -, hread⟩ := h
  obtain ⟨hcomma, hsemicolon⟩ := not_mem_of_isNameChar (isNameChar_of_readDigits? hread)
  simp [hcomma, hsemicolon]

/-- The shape of an address is that of an absolute one. -/
theorem Spells.ofOperand (h : Spells spelling address) :
    Mode.ofOperand (some spelling) = .extended := by
  have htrim : Text.trim spelling = spelling := Text.trim_of_isTrimmed h.isWord.isTrimmed
  have hindex := dropIndex?_of_not_mem h.not_mem.1
  obtain ⟨digits, rfl, hlength, hread⟩ := h
  have haddress : isAddress ('$' :: digits) = true := by simp [isAddress, hlength, hread]
  simp [Mode.ofOperand, htrim, hindex, haddress, Literal.immediateMarker]

/-- As a literal an address has its own value. -/
theorem Spells.value? (h : Spells spelling address) :
    Literal.value? spelling = some (address.toNat : Int) := by
  have htrim : Text.trim spelling = spelling := Text.trim_of_isTrimmed h.isWord.isTrimmed
  have haddress : address.toNat < 65536 := address.toNat_lt
  obtain ⟨digits, rfl, -, hread⟩ := h
  have hmarker : Text.dropMarker Literal.immediateMarker ('$' :: digits) = '$' :: digits := rfl
  have hbound : ¬Literal.bound ≤ address.toNat := by
    rw [Literal.bound]
    omega
  simp [Literal.value?, Literal.parse, htrim, hmarker, Literal.splitSign, Literal.splitRadix, hread,
    hbound]

end Operand

end Mc6800
