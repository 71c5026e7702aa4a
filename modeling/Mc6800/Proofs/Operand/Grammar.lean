import Mathlib.Data.Nat.Digits.Defs
import Mathlib.Data.List.Forall2
import Mc6800.Proofs.Operand.Shapes

/-!
# The grammar of literals

A literal is written in four parts, each but the last of which may be left out: an immediate marker,
a minus sign, a hexadecimal marker and the digits (`Literal.Form`). A text is read as a literal
exactly if it is written in this way, and its value is that of the digits with the sign
(`Literal.parse_grammar`).

The same value comes out of 32 bits (`Literal.parse_eq_parse32`). There the digits are read by a
reader that takes a sign of its own, so they are looked at first, and the number is negated last. No
number that is read from digits alone is the one that has no negation in 32 bits.
-/

set_option autoImplicit false

namespace Mc6800

/-! ## Numerals -/

namespace Text

/-- The digits of base sixteen in upper case, each at the place of its value. -/
def upperDigits : Text := "0123456789ABCDEF"

/-- The digits of base sixteen in lower case. -/
def lowerDigits : Text := "0123456789abcdef"

/-- The character is the digit with this value in either case. -/
def Radix.IsDigit (radix : Radix) (c : Char) (d : Nat) : Prop :=
  d < radix.base ∧ (upperDigits[d]? = some c ∨ lowerDigits[d]? = some c)

/-- The text is one or more digits that make this number, the first of them counting most. -/
def IsNumeral (radix : Radix) (t : Text) (n : Nat) : Prop :=
  t ≠ [] ∧ ∃ ds, List.Forall₂ radix.IsDigit t ds ∧ n = Nat.ofDigits radix.base ds.reverse

theorem Radix.digit?_of_isDigit {radix : Radix} {c : Char} {d : Nat} (h : radix.IsDigit c d) :
    radix.digit? c = some d := by
  have hdigits : ∀ radix ∈ [decimal, hexadecimal], ∀ d < radix.base,
      (upperDigits[d]?.all fun c => radix.digit? c == some d) ∧
        lowerDigits[d]?.all fun c => radix.digit? c == some d := by
    decide +kernel
  obtain ⟨hlt, hc⟩ := h
  obtain ⟨hupper, hlower⟩ := hdigits radix (by cases radix <;> simp) d hlt
  rcases hc with hc | hc
  · simpa [hc] using hupper
  · simpa [hc] using hlower

theorem Radix.isDigit_of_digit? {radix : Radix} {c : Char} {d : Nat}
    (h : radix.digit? c = some d) : radix.IsDigit c d := by
  have hten : ∀ d < 10, upperDigits[d]? = some (Char.ofNat (48 + d)) := by decide
  have hlower : ∀ d < 6, lowerDigits[d + 10]? = some (Char.ofNat (97 + d)) := by decide
  have hupper : ∀ d < 6, upperDigits[d + 10]? = some (Char.ofNat (65 + d)) := by decide
  -- A character of a range is the first of the range moved by their distance.
  have hrange : ∀ {low high : Char}, low ≤ c ∧ c ≤ high →
      Char.ofNat (low.toNat + (c.toNat - low.toNat)) = c ∧
        c.toNat - low.toNat < high.toNat - low.toNat + 1 := by
    intro low high hc
    have hlow : low.toNat ≤ c.toNat := UInt32.le_iff_toNat_le.1 hc.1
    have hhigh : c.toNat ≤ high.toNat := UInt32.le_iff_toNat_le.1 hc.2
    exact ⟨by rw [Nat.add_sub_cancel' hlow, Char.ofNat_toNat], by omega⟩
  unfold digit? at h
  split at h
  · next hc =>
    cases h
    obtain ⟨hchar, hlt⟩ := hrange hc
    exact ⟨Nat.lt_of_lt_of_le hlt (by cases radix <;> decide),
      .inl ((hten _ hlt).trans (congrArg some hchar))⟩
  · cases radix with
    | decimal => cases h
    | hexadecimal =>
      dsimp only at h
      split at h
      · next hc =>
        cases h
        obtain ⟨hchar, hlt⟩ := hrange hc
        exact ⟨Nat.add_lt_add_right hlt 10, .inr ((hlower _ hlt).trans (congrArg some hchar))⟩
      · split at h
        · next hc =>
          cases h
          obtain ⟨hchar, hlt⟩ := hrange hc
          exact ⟨Nat.add_lt_add_right hlt 10, .inl ((hupper _ hlt).trans (congrArg some hchar))⟩
        · cases h

/-- Digits are read by Horner's rule. -/
theorem readDigitsFrom_eq_some_iff {radix : Radix} {start n : Nat} {t : Text} :
    readDigitsFrom radix start t = some n ↔ ∃ ds, List.Forall₂ radix.IsDigit t ds ∧
      n = ds.foldl (fun m d => m * radix.base + d) start := by
  induction t generalizing start with
  | nil => simp [readDigitsFrom, eq_comm]
  | cons c rest ih =>
    unfold readDigitsFrom
    constructor
    · intro h
      split at h
      · cases h
      · next d hd =>
        obtain ⟨ds, hds, hn⟩ := ih.1 h
        exact ⟨d :: ds, .cons (Radix.isDigit_of_digit? hd) hds, hn⟩
    · rintro ⟨ds, hds, hn⟩
      cases hds with
      | cons hd hds =>
        rw [Radix.digit?_of_isDigit hd]
        exact ih.2 ⟨_, hds, hn⟩

/-- What is read as a numeral is one, with the same value. -/
theorem readDigits?_eq_some_iff {radix : Radix} {t : Text} {n : Nat} :
    readDigits? radix t = some n ↔ IsNumeral radix t n := by
  have hvalue : ∀ ds : List Nat, Nat.ofDigits radix.base ds.reverse =
      ds.foldl (fun m d => m * radix.base + d) 0 := by
    intro ds
    rw [Nat.ofDigits_eq_foldr, List.foldr_reverse]
    simp only [Nat.cast_id, Nat.mul_comm, Nat.add_comm]
  unfold readDigits? IsNumeral
  cases t with
  | nil => simp
  | cons c rest =>
    simp only [List.isEmpty_cons, Bool.false_eq_true, if_false, ne_eq, reduceCtorEq,
      not_false_eq_true, true_and, hvalue, readDigitsFrom_eq_some_iff]

/-- Whether a text is nothing but digits. -/
def allDigits (radix : Radix) (t : Text) : Bool := t.all fun c => (radix.digit? c).isSome

/-- Only a text of digits is read as a numeral, and one that is not empty always is. -/
theorem readDigits?_eq_none_iff {radix : Radix} {t : Text} :
    readDigits? radix t = none ↔ t = [] ∨ allDigits radix t = false := by
  have hfrom : ∀ start, readDigitsFrom radix start t = none ↔ allDigits radix t = false := by
    intro start
    induction t generalizing start with
    | nil => simp [readDigitsFrom, allDigits]
    | cons c rest ih =>
      rw [allDigits, List.all_cons, ← allDigits]
      unfold readDigitsFrom
      cases hd : radix.digit? c with
      | none => simp
      | some d => simpa using ih _
  unfold readDigits?
  cases t with
  | nil => simp
  | cons c rest => simpa using hfrom 0

theorem allDigits_of_isNumeral {radix : Radix} {t : Text} {n : Nat} (h : IsNumeral radix t n) :
    ∀ c ∈ t, (radix.digit? c).isSome = true := by
  refine List.all_eq_true.1 (Bool.eq_true_of_not_eq_false fun hfalse => ?_)
  have hnone := readDigits?_eq_none_iff.2 (.inr hfalse)
  rw [readDigits?_eq_some_iff.2 h] at hnone
  cases hnone

end Text

namespace Literal

/-! ## The parts of a literal -/

/-- What stands in front of the digits to announce their base. -/
inductive RadixMarker where
  | absent
  | dollar
  | lowerX
  | upperX
  deriving DecidableEq, Repr

namespace RadixMarker

/-- The marker as it is written. -/
def text : RadixMarker → Text
  | absent => []
  | dollar => "$"
  | lowerX => "0x"
  | upperX => "0X"

/-- The base of the digits behind the marker. -/
def radix : RadixMarker → Text.Radix
  | absent => .decimal
  | dollar | lowerX | upperX => .hexadecimal

end RadixMarker

/-- The parts of a literal, in the order in which they are written. -/
structure Form where
  immediate : Bool
  negative : Bool
  marker : RadixMarker
  digits : Text
  deriving DecidableEq, Repr

namespace Form

variable {f : Form} {n : Nat}

/-- What stands behind the sign. -/
def unsigned (f : Form) : Text := f.marker.text ++ f.digits

/-- The literal as it is written. -/
def text (f : Form) : Text :=
  (if f.immediate then [immediateMarker] else []) ++
    ((if f.negative then ['-'] else []) ++ f.unsigned)

/-- The digits make this number. -/
def HasMagnitude (f : Form) (n : Nat) : Prop := Text.IsNumeral f.marker.radix f.digits n

/-- The number with the sign. -/
def signed (f : Form) (n : Nat) : Int := if f.negative then -(n : Int) else n

/-- The text is cut into these parts when it is read. -/
structure IsCutOf (f : Form) (t : Text) : Prop where
  sign : splitSign (Text.dropMarker immediateMarker t) = (f.negative, f.unsigned)
  radix : splitRadix f.unsigned = (f.marker.radix, f.digits)

theorem exists_radixMarker (t : Text) :
    ∃ marker : RadixMarker, t = marker.text ++ (splitRadix t).2 ∧
      splitRadix t = (marker.radix, (splitRadix t).2) := by
  unfold splitRadix
  split
  · exact ⟨.dollar, rfl, rfl⟩
  · exact ⟨.lowerX, rfl, rfl⟩
  · exact ⟨.upperX, rfl, rfl⟩
  · exact ⟨.absent, rfl, rfl⟩

theorem splitSign_append (t : Text) :
    t = (if (splitSign t).1 then ['-'] else []) ++ (splitSign t).2 := by
  unfold splitSign
  split <;> rfl

theorem exists_dropMarker_append (c : Char) (t : Text) :
    ∃ marked : Bool, t = (if marked then [c] else []) ++ Text.dropMarker c t := by
  cases t with
  | nil => exact ⟨false, rfl⟩
  | cons d rest =>
    rw [Text.dropMarker]
    split
    · next hd => exact ⟨true, by rw [hd]; rfl⟩
    · exact ⟨false, rfl⟩

/-- Every text is cut into parts that put together are the text. -/
theorem exists_isCutOf (t : Text) : ∃ f : Form, f.IsCutOf t ∧ t = f.text := by
  obtain ⟨immediate, himmediate⟩ := exists_dropMarker_append immediateMarker t
  have hsign := splitSign_append (Text.dropMarker immediateMarker t)
  obtain ⟨marker, hmarker, hradix⟩ :=
    exists_radixMarker (splitSign (Text.dropMarker immediateMarker t)).2
  let f : Form := ⟨immediate, (splitSign (Text.dropMarker immediateMarker t)).1, marker,
    (splitRadix (splitSign (Text.dropMarker immediateMarker t)).2).2⟩
  have hunsigned : f.unsigned = (splitSign (Text.dropMarker immediateMarker t)).2 := hmarker.symm
  refine ⟨f, ⟨?_, ?_⟩, ?_⟩
  · rw [hunsigned]
  · rw [hunsigned]
    exact hradix
  · rw [text, hunsigned, ← hsign]
    exact himmediate

/-- Behind the sign a literal begins with a marker or a digit. -/
theorem HasMagnitude.exists_unsigned (h : f.HasMagnitude n) :
    ∃ c rest, f.unsigned = c :: rest ∧ c ≠ immediateMarker ∧ c ≠ '-' := by
  obtain ⟨immediate, negative, marker, digits⟩ := f
  cases marker with
  | dollar => exact ⟨'$', digits, rfl, by decide, by decide⟩
  | lowerX => exact ⟨'0', 'x' :: digits, rfl, by decide, by decide⟩
  | upperX => exact ⟨'0', 'X' :: digits, rfl, by decide, by decide⟩
  | absent =>
    cases digits with
    | nil => exact absurd rfl h.1
    | cons c rest =>
      have hread := Text.readDigits?_eq_some_iff.2 h
      have hc := Operand.isNameChar_of_readDigits? hread c List.mem_cons_self
      refine ⟨c, rest, rfl, ?_, ?_⟩
      · rintro rfl
        exact absurd hc (by decide)
      · rintro rfl
        exact absurd hc (by decide)

/-- The digits of base ten are not taken for a marker. -/
theorem HasMagnitude.splitRadix_eq (h : f.HasMagnitude n) :
    splitRadix f.unsigned = (f.marker.radix, f.digits) := by
  obtain ⟨immediate, negative, marker, digits⟩ := f
  cases marker with
  | dollar | lowerX | upperX => rfl
  | absent =>
    have hdigits : ∀ c ∈ digits, (Text.Radix.decimal.digit? c).isSome = true :=
      Text.allDigits_of_isNumeral h
    show splitRadix digits = (.decimal, digits)
    unfold splitRadix
    split
    · exact absurd (hdigits '$' List.mem_cons_self) (by decide)
    · exact absurd (hdigits 'x' (by simp)) (by decide)
    · exact absurd (hdigits 'X' (by simp)) (by decide)
    · rfl

/-- A literal is cut into the parts that it is written in. -/
theorem HasMagnitude.isCutOf (h : f.HasMagnitude n) : f.IsCutOf f.text := by
  obtain ⟨c, rest, hunsigned, hmarker, hsign⟩ := h.exists_unsigned
  refine ⟨?_, h.splitRadix_eq⟩
  have hdrop : Text.dropMarker immediateMarker f.text =
      (if f.negative then ['-'] else []) ++ f.unsigned := by
    rw [text]
    cases f.immediate with
    | true => rfl
    | false =>
      cases f.negative with
      | true => rfl
      | false =>
        rw [hunsigned]
        exact if_neg hmarker
  rw [hdrop]
  cases f.negative with
  | true => rfl
  | false =>
    rw [hunsigned]
    simp [splitSign, hsign]

/-- The value of a text is that of its parts. -/
theorem IsCutOf.parse_eq {t : Text} (h : f.IsCutOf (Text.trim t)) :
    parse t =
      match Text.readDigits? f.marker.radix f.digits with
      | none => .error .malformed
      | some n => if bound ≤ n then .error .overflow else .ok (f.signed n) := by
  simp only [parse, h.sign, h.radix]
  rfl

end Form

/-! ## Literals in 32 bits -/

/-- Whether a number has a place in 32 bits, one of them for the sign. -/
def FitsSigned (v : Int) : Prop := -(bound : Int) ≤ v ∧ v < bound

instance (v : Int) : Decidable (FitsSigned v) := inferInstanceAs (Decidable (_ ∧ _))

/-- The number, if it has a place in 32 bits. -/
def signed? (v : Int) : Option Int := if FitsSigned v then some v else none

/-- The negation of a number, if that has a place in 32 bits. -/
def negate? (v : Int) : Option Int := signed? (-v)

/-- The number that a text of digits stands for, behind at most one sign of either kind, if it has a
place in 32 bits. -/
def readSigned? (radix : Text.Radix) (t : Text) : Option Int :=
  match t with
  | '-' :: digits => (Text.readDigits? radix digits).bind fun n => signed? (-(n : Int))
  | '+' :: digits => (Text.readDigits? radix digits).bind fun n => signed? n
  | digits => (Text.readDigits? radix digits).bind fun n => signed? n

/-- The value of digits behind a sign, computed in 32 bits. -/
def evaluate32 (negative : Bool) (radix : Text.Radix) (digits : Text) : Except Fault Int :=
  if digits.isEmpty || !Text.allDigits radix digits then .error .malformed
  else
    match readSigned? radix digits with
    | none => .error .overflow
    | some v =>
      if negative then
        match negate? v with
        | none => .error .overflow
        | some w => .ok w
      else .ok v

/-- The value of a literal, computed in 32 bits. -/
def parse32 (t : Text) : Except Fault Int :=
  let (negative, unsigned) := splitSign (Text.dropMarker immediateMarker (Text.trim t))
  let (radix, digits) := splitRadix unsigned
  evaluate32 negative radix digits

variable {radix : Text.Radix} {digits : Text}

theorem signed?_eq_some_iff {v w : Int} : signed? v = some w ↔ w = v ∧ FitsSigned v := by
  unfold signed?
  split
  · next h => simp [h, eq_comm]
  · next h => simp [h]

/-- Digits alone are read without a sign. -/
theorem readSigned?_of_allDigits (h : Text.allDigits radix digits = true) :
    readSigned? radix digits = (Text.readDigits? radix digits).bind fun n => signed? n := by
  unfold readSigned?
  split
  · cases radix <;> simp [Text.allDigits, Text.Radix.digit?] at h
  · cases radix <;> simp [Text.allDigits, Text.Radix.digit?] at h
  · rfl

theorem exists_of_readSigned? (h : Text.allDigits radix digits = true) {v : Int}
    (hv : readSigned? radix digits = some v) :
    ∃ n : Nat, Text.readDigits? radix digits = some n ∧ v = n ∧ n < bound := by
  rw [readSigned?_of_allDigits h] at hv
  obtain ⟨n, hn, hsigned⟩ := Option.bind_eq_some_iff.1 hv
  obtain ⟨rfl, hfits⟩ := signed?_eq_some_iff.1 hsigned
  exact ⟨n, hn, rfl, Int.ofNat_lt.1 hfits.2⟩

/-- The number that digits alone stand for has a negation. -/
theorem negate?_of_readSigned? (h : Text.allDigits radix digits = true) {v : Int}
    (hv : readSigned? radix digits = some v) : negate? v = some (-v) := by
  obtain ⟨n, -, rfl, hn⟩ := exists_of_readSigned? h hv
  refine signed?_eq_some_iff.2 ⟨rfl, ?_⟩
  unfold FitsSigned
  omega

/-- The least number of 32 bits has none, but digits alone do not stand for it. -/
example : readSigned? .hexadecimal "-80000000" = some (-0x80000000) ∧
    negate? (-0x80000000) = none := by decide +kernel

theorem evaluate32_eq (negative : Bool) (radix : Text.Radix) (digits : Text) :
    evaluate32 negative radix digits =
      match Text.readDigits? radix digits with
      | none => .error .malformed
      | some n =>
        if bound ≤ n then .error .overflow else .ok (if negative then -(n : Int) else n) := by
  unfold evaluate32
  by_cases hform : digits = [] ∨ Text.allDigits radix digits = false
  · rw [Text.readDigits?_eq_none_iff.2 hform, if_pos (by simpa using hform)]
  · obtain ⟨n, hn⟩ := Option.ne_none_iff_exists'.1 (mt Text.readDigits?_eq_none_iff.1 hform)
    rw [if_neg (by simpa using hform), hn]
    -- Digits alone have no sign that the reader could take, so it fails only beyond the bound.
    have hdigits : Text.allDigits radix digits = true := by simpa using (not_or.1 hform).2
    have hread := readSigned?_of_allDigits hdigits
    rw [hn, Option.bind_some] at hread
    by_cases hbound : bound ≤ n
    · have hnone : signed? n = none := if_neg fun hfits => by
        unfold FitsSigned at hfits
        omega
      simp only [hread, hnone, if_pos hbound]
    · have hsome : signed? n = some (n : Int) := if_pos (by unfold FitsSigned; omega)
      simp only [hread, hsome, if_neg hbound]
      cases negative with
      | false => rfl
      | true =>
        have hnegate := negate?_of_readSigned? hdigits (hread.trans hsome)
        simp only [hnegate, if_true]

/-- A literal has the same value in 32 bits. -/
theorem parse_eq_parse32 (t : Text) : parse t = parse32 t := by
  unfold parse parse32
  generalize splitSign (Text.dropMarker immediateMarker (Text.trim t)) = signed
  obtain ⟨negative, unsigned⟩ := signed
  dsimp only
  generalize splitRadix unsigned = based
  obtain ⟨radix, digits⟩ := based
  exact (evaluate32_eq negative radix digits).symm

/-- **The grammar of literals.** A text that is written as a literal, but for blanks around it, has
the value of its digits with its sign if their number is below the bound, and is too large if not;
any other text is malformed. It is evaluated alike in 32 bits, where the negation never fails: what
is read from digits alone has one. -/
theorem parse_grammar (t : Text) :
    (∀ (f : Form) (n : Nat), Text.trim t = f.text → f.HasMagnitude n →
      (n ≤ 0x7FFFFFFF → parse t = .ok (f.signed n)) ∧
      (0x80000000 ≤ n → parse t = .error .overflow)) ∧
    ((∀ (f : Form) (n : Nat), Text.trim t = f.text → ¬f.HasMagnitude n) →
      parse t = .error .malformed) ∧
    parse t = parse32 t ∧
    ∀ radix digits v, Text.allDigits radix digits = true → readSigned? radix digits = some v →
      negate? v = some (-v) := by
  refine ⟨fun f n htext hn => ?_, fun hnot => ?_, parse_eq_parse32 t,
    fun _ _ _ hdigits => negate?_of_readSigned? hdigits⟩
  · have hparse := (htext ▸ hn.isCutOf : f.IsCutOf (Text.trim t)).parse_eq
    rw [Text.readDigits?_eq_some_iff.2 hn] at hparse
    refine ⟨fun hle => ?_, fun hle => ?_⟩
    · rw [hparse]
      exact if_neg (by unfold bound; omega)
    · rw [hparse]
      exact if_pos hle
  · obtain ⟨f, hcut, htext⟩ := Form.exists_isCutOf (Text.trim t)
    have hnone : Text.readDigits? f.marker.radix f.digits = none := by
      cases hread : Text.readDigits? f.marker.radix f.digits with
      | none => rfl
      | some n => exact absurd (Text.readDigits?_eq_some_iff.1 hread) (hnot f n htext)
    rw [hcut.parse_eq, hnone]

/-- Digits behind a wide blank, all three markers and zeros, up to the bound and at it; and a second
sign behind the hexadecimal marker. The largest number has a negation. -/
theorem parse_grammar_around_bound :
    parse "\u3000#-0X0007FFFFFFF" = .ok (-0x7FFFFFFF) ∧
    parse "#-$80000000" = .error .overflow ∧
    parse "-$-80000000" = .error .malformed ∧
    negate? 2147483647 = some (-2147483647) := by
  have hlargest : (⟨true, true, .upperX, "0007FFFFFFF"⟩ : Form).HasMagnitude 0x7FFFFFFF :=
    Text.readDigits?_eq_some_iff.1 (by decide +kernel)
  have hbound : (⟨true, true, .dollar, "80000000"⟩ : Form).HasMagnitude 0x80000000 :=
    Text.readDigits?_eq_some_iff.1 (by decide +kernel)
  refine ⟨((parse_grammar _).1 _ _ (by decide +kernel) hlargest).1 (by decide),
    ((parse_grammar _).1 _ _ (by decide +kernel) hbound).2 (by decide),
    (parse_grammar _).2.1 fun f n htext hn => ?_,
    (parse_grammar []).2.2.2 .decimal "2147483647" _ (by decide +kernel) (by decide +kernel)⟩
  have hcut : f.IsCutOf (Text.trim "-$-80000000") := htext ▸ hn.isCutOf
  have hunsigned : f.unsigned = "$-80000000" := (congrArg Prod.snd hcut.sign).symm
  have hdigits : f.digits = "-80000000" := by
    have hradix := hcut.radix
    rw [hunsigned] at hradix
    exact (congrArg Prod.snd hradix).symm
  have hsign := Text.allDigits_of_isNumeral hn '-' (by rw [hdigits]; decide)
  cases hmarker : f.marker.radix <;> simp [hmarker, Text.Radix.digit?] at hsign

end Literal

end Mc6800
