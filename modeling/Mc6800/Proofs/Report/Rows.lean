import Mc6800.Proofs.Operand.Grammar
import Mc6800.Proofs.Report.Dump

/-!
# Dumps that are read back

The rows of a dump give back the bytes that they were made of (`dumpRows_lossless`): a row is read
as the address in front of its colon, four digits in upper case, and the bytes behind it, each of
them two digits behind a space.
-/

set_option autoImplicit false

namespace Mc6800

/-! ## Addresses and bytes in rows -/

namespace Text

/-- The text is the word in four digits of base sixteen, in upper case. -/
structure IsWordNumeral (t : Text) (w : Word) : Prop where
  length : t.length = 4
  digits : ∀ c ∈ t, c ∈ upperDigits
  value : IsNumeral .hexadecimal t w.toNat

theorem mem_upperDigits_of_mem_ofByte {b : Byte} {c : Char} (h : c ∈ ofByte b) :
    c ∈ upperDigits := by
  have hdigit : ∀ n < 16, hexDigit n ∈ upperDigits := by decide
  have hb : b.toNat < 256 := b.toNat_lt
  rcases List.mem_cons.1 h with rfl | h
  · exact hdigit _ (by omega)
  · rw [List.mem_singleton.1 h]
    exact hdigit _ (by omega)

theorem isWordNumeral_ofWord (w : Word) : IsWordNumeral (ofWord w) w := by
  obtain ⟨digits, hdigits, hlength, hvalue⟩ := Operand.spells_ofWord w
  obtain rfl := (List.cons.inj hdigits).2
  refine ⟨hlength, fun c hc => ?_, readDigits?_eq_some_iff.1 hvalue⟩
  rcases List.mem_append.1 hc with hc | hc
  · exact mem_upperDigits_of_mem_ofByte hc
  · exact mem_upperDigits_of_mem_ofByte hc

theorem IsWordNumeral.not_mem {t : Text} {w : Word} (h : IsWordNumeral t w) {c : Char}
    (hc : c ∉ upperDigits) : c ∉ t := fun hmem => hc (h.digits c hmem)

/-- The bytes of pairs of digits, each behind a space. -/
def readPairs? : Text → Option (List Byte)
  | [] => some []
  | ' ' :: high :: low :: rest =>
    match readByte? [high, low], readPairs? rest with
    | some b, some bytes => some (b :: bytes)
    | _, _ => none
  | _ => none

theorem readPairs?_flatMap (bytes : List Byte) :
    readPairs? (bytes.flatMap fun b => ' ' :: ofByte b) = some bytes := by
  induction bytes with
  | nil => rfl
  | cons b rest ih =>
    have hpair := readByte?_ofByte b
    rw [ofByte] at hpair
    rw [List.flatMap_cons, ofByte, List.cons_append, List.cons_append, List.cons_append,
      List.nil_append, readPairs?, hpair, ih]

theorem ofBytes_cons_cons (b c : Byte) (rest : List Byte) :
    ofBytes (b :: c :: rest) = ofByte b ++ ' ' :: ofBytes (c :: rest) := by
  simp [ofBytes]

theorem cons_ofBytes {bytes : List Byte} (hne : bytes ≠ []) :
    ' ' :: ofBytes bytes = bytes.flatMap fun b => ' ' :: ofByte b := by
  induction bytes with
  | nil => exact absurd rfl hne
  | cons b rest ih =>
    cases rest with
    | nil => simp [ofBytes]
    | cons c more =>
      rw [List.flatMap_cons, ← ih (List.cons_ne_nil c more), ofBytes_cons_cons]
      rfl

theorem length_ofBytes (bytes : List Byte) : (ofBytes bytes).length = 3 * bytes.length - 1 := by
  induction bytes with
  | nil => rfl
  | cons b rest ih =>
    cases rest with
    | nil => simp [ofBytes]
    | cons c more =>
      rw [ofBytes_cons_cons, List.length_append, List.length_cons, ih, length_ofByte]
      simp only [List.length_cons]
      omega

end Text

/-! ## Rows -/

/-- The bytes behind the colon of a row. -/
def dumpBytes? (row : Text) : Option (List Byte) :=
  Text.readPairs? ((row.dropWhile (· != ':')).drop 1)

theorem dumpBytes?_dumpRow (address : Word) {bytes : List Byte} (hne : bytes ≠ []) :
    dumpBytes? (dumpRow address bytes) = some bytes := by
  have hcolon : ∀ c ∈ Text.ofWord address, (c != ':') = true := by
    intro c hc
    rw [bne_iff_ne]
    rintro rfl
    exact (Text.isWordNumeral_ofWord address).not_mem (by decide) hc
  have hrow : dumpRow address bytes = Text.ofWord address ++ ':' :: ' ' :: Text.ofBytes bytes := by
    simp [dumpRow]
  rw [dumpBytes?, hrow, List.dropWhile_append_of_pos hcolon, List.dropWhile_cons_of_neg (by decide),
    List.drop_one, List.tail_cons, Text.cons_ofBytes hne, Text.readPairs?_flatMap]

theorem length_dumpChunks (bytes : List Byte) :
    (dumpChunks bytes).length = (bytes.length + 15) / 16 := by
  fun_induction dumpChunks bytes with
  | case1 => rfl
  | case2 b rest ih =>
    rw [List.length_cons, ih, List.length_drop, List.length_cons, dumpWidth]
    omega

theorem length_dumpRows (origin : Word) (bytes : List Byte) :
    (dumpRows origin bytes).length = (bytes.length + 15) / 16 := by
  rw [dumpRows, List.length_map, List.length_zipIdx, length_dumpChunks]

theorem map_dumpBytes?_dumpRows (origin : Word) (bytes : List Byte) :
    (dumpRows origin bytes).map dumpBytes? = (dumpChunks bytes).map some := by
  have hread : ∀ p ∈ (dumpChunks bytes).zipIdx,
      dumpBytes? (dumpRow (origin + UInt16.ofNat (dumpWidth * p.2)) p.1) = some p.1 := fun p hp =>
    dumpBytes?_dumpRow _ (ne_nil_of_mem_dumpChunks (List.fst_mem_of_mem_zipIdx hp))
  calc (dumpRows origin bytes).map dumpBytes?
      = (dumpChunks bytes).zipIdx.map (some ∘ Prod.fst) := by
        rw [dumpRows, List.map_map]
        exact List.map_congr_left hread
    _ = ((dumpChunks bytes).zipIdx.map Prod.fst).map some := List.map_map.symm
    _ = _ := by rw [List.zipIdx_map_fst]

/-- **Dumps lose nothing.** There is a row for every sixteen bytes that are begun. It is headed by
the address sixteen bytes behind that of the row above, modulo the size of the memory, in four
digits. All rows but the last are full, the last is not empty, and the bytes behind the colons of
all rows are the bytes that were dumped. -/
theorem dumpRows_lossless (origin : Word) (bytes : List Byte) :
    let rows := dumpRows origin bytes
    rows.length = (bytes.length + 15) / 16 ∧
    (∀ (i : Nat) (row : Text), rows[i]? = some row →
      ∃ (address : Word) (chunk : List Byte), Text.IsWordNumeral (row.take 4) address ∧
        address.toNat = (origin.toNat + 16 * i) % 65536 ∧ row[4]? = some ':' ∧
        dumpBytes? row = some chunk ∧
        if i + 1 < rows.length then chunk.length = 16 else 1 ≤ chunk.length ∧ chunk.length ≤ 16) ∧
    ∃ chunks : List (List Byte),
      rows.map dumpBytes? = chunks.map some ∧ chunks.flatten = bytes := by
  intro rows
  have hlength : rows.length = (bytes.length + 15) / 16 := length_dumpRows origin bytes
  refine ⟨hlength, fun i row hrow => ?_, dumpChunks bytes, map_dumpBytes?_dumpRows origin bytes,
    flatten_dumpChunks bytes⟩
  have hi : i < rows.length := (List.getElem?_eq_some_iff.1 hrow).1
  have hwidth : dumpWidth * i < bytes.length := by
    rw [dumpWidth]
    omega
  let chunk := (bytes.drop (dumpWidth * i)).take dumpWidth
  have hchunk : chunk.length = min 16 (bytes.length - 16 * i) := by
    rw [List.length_take, List.length_drop, dumpWidth]
  have hne : chunk ≠ [] := by
    intro hnil
    rw [hnil, List.length_nil] at hchunk
    rw [dumpWidth] at hwidth
    omega
  rw [getElem?_dumpRows origin hwidth, Option.some.injEq] at hrow
  subst hrow
  refine ⟨_, chunk, Text.isWordNumeral_ofWord _, ?_, rfl, dumpBytes?_dumpRow _ hne, ?_⟩
  · rw [UInt16.toNat_add, UInt16.toNat_ofNat', dumpWidth]
    omega
  · rw [hchunk]
    rw [dumpWidth] at hwidth
    split <;> omega

/-- Behind the last address rows go on at the first one. -/
theorem dumpRows_lossless_around_end :
    let bytes : List Byte := List.replicate 15 0 ++ [1, 2, 3]
    let rows := dumpRows 0xFFF8 bytes
    rows[1]? = some ("0008: 02 03" : Text) ∧ rows.length = 2 ∧
      ∃ (address : Word) (chunk : List Byte), Text.IsWordNumeral "0008" address ∧
        address.toNat = 8 ∧ dumpBytes? "0008: 02 03" = some chunk ∧ 1 ≤ chunk.length := by
  intro bytes rows
  have hrow : rows[1]? = some ("0008: 02 03" : Text) := by decide +kernel
  obtain ⟨hlength, hrows, -⟩ := dumpRows_lossless 0xFFF8 bytes
  obtain ⟨address, chunk, hhead, haddress, -, hread, hchunk⟩ := hrows 1 _ hrow
  have htwo : rows.length = 2 := hlength.trans (by decide)
  rw [htwo] at hchunk
  exact ⟨hrow, htwo, address, chunk, hhead, haddress, hread, hchunk.1⟩

end Mc6800
