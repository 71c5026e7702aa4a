import Mc6800.Paint
import Mc6800.Report.Dump
import Mc6800.Proofs.MachineCode.Loaded
import Mc6800.Proofs.Operand.Shapes

/-!
# Addresses in dumps

A dump knows one address, the last origin, and lays the code of all lines one behind the other from
there (`dumpRows_shows`). It shows a line where assembly put it exactly if the code in front of the
line leads from that origin to the line's address, and every line is shown there if no code stands
in front of a readable origin (`Assembler.OriginsFirst.address_eq`).
-/

set_option autoImplicit false

namespace Mc6800

/-! ## Reading rows -/

/-- The address in front of the colon of a row, and the bytes behind it. -/
def readDumpRow? (row : Text) : Option (Word × List Byte) :=
  match Text.readDigits? .hexadecimal (row.take 4),
    CodeLine.readBytes? (Text.words (row.drop 6)) with
  | some address, some bytes => some (UInt16.ofNat address, bytes)
  | _, _ => none

/-- A row shows a byte at an address, counted on from the one in front of its colon. -/
def RowShows (row : Text) (address : Word) (byte : Byte) : Prop :=
  ∃ start bytes column, readDumpRow? row = some (start, bytes) ∧ bytes[column]? = some byte ∧
    address = start + UInt16.ofNat column

theorem readDumpRow?_dumpRow (address : Word) {bytes : List Byte} (hne : bytes ≠ []) :
    readDumpRow? (dumpRow address bytes) = some (address, bytes) := by
  obtain ⟨digits, hdigits, -, hread⟩ := Operand.spells_ofWord address
  obtain rfl := (List.cons.inj hdigits).2
  have htake : (dumpRow address bytes).take 4 = Text.ofWord address := rfl
  have hdrop : (dumpRow address bytes).drop 6 = Text.ofBytes bytes := rfl
  rw [readDumpRow?, htake, hdrop, hread, Text.words_ofBytes hne, CodeLine.readBytes?_map_ofByte]
  simp

/-! ## Printing rows -/

theorem Text.isLine_append {s t : Text} (hs : '\n' ∉ s) (ht : IsLine t) (hne : t ≠ []) :
    IsLine (s ++ t) := by
  refine ⟨by simp [hs, ht.1], ?_⟩
  obtain ⟨c, hc⟩ := Option.ne_none_iff_exists'.1 (mt List.getLast?_eq_none_iff.1 hne)
  rw [List.getLast?_append, hc, Option.some_or, ← hc]
  exact ht.2

theorem isLine_dumpRow (address : Word) {bytes : List Byte} (hne : bytes ≠ []) :
    Text.IsLine (dumpRow address bytes) := by
  refine Text.isLine_append ?_ (Text.isLine_ofBytes hne) (Text.isTrimmed_ofBytes hne).ne_nil
  simp only [Text.ofWord, List.mem_append, not_or]
  exact ⟨⟨(Text.isWord_ofByte _).lineFeed_not_mem, (Text.isWord_ofByte _).lineFeed_not_mem⟩,
    by decide⟩

/-- The lines of what is shown of lines are these lines. -/
theorem Terminal.lines_putLines (colour : Bool) (paint : Ink → Text → Text) {lines : List Text}
    (h : ∀ l ∈ lines, Text.IsLine l) :
    Text.lines ((Terminal.mk false colour paint).putLines .result lines) = lines := by
  induction lines with
  | nil => rfl
  | cons l rest ih =>
    obtain ⟨hl, hrest⟩ := List.forall_mem_cons.1 h
    have hput : (Terminal.mk false colour paint).putLines .result (l :: rest) =
        l ++ '\n' :: (Terminal.mk false colour paint).putLines .result rest := by
      simp [putLines, putLine, put]
    rw [hput, Text.lines_append_lineFeed hl, ih hrest]

/-! ## Rows of an image -/

theorem ne_nil_of_mem_dumpChunks {bytes chunk : List Byte} (h : chunk ∈ dumpChunks bytes) :
    chunk ≠ [] := by
  fun_induction dumpChunks bytes with
  | case1 => cases h
  | case2 b rest ih =>
    rcases List.mem_cons.1 h with rfl | h
    · exact List.cons_ne_nil _ _
    · exact ih h

theorem getElem?_dumpChunks {bytes : List Byte} {row : Nat} (h : dumpWidth * row < bytes.length) :
    (dumpChunks bytes)[row]? = some ((bytes.drop (dumpWidth * row)).take dumpWidth) := by
  fun_induction dumpChunks bytes generalizing row with
  | case1 => exact absurd h (Nat.not_lt_zero _)
  | case2 b rest ih =>
    cases row with
    | zero => rfl
    | succ row =>
      have hwidth : dumpWidth * (row + 1) = dumpWidth * row + (dumpWidth - 1) + 1 := rfl
      rw [List.getElem?_cons_succ, ih, hwidth, List.drop_succ_cons, List.drop_drop, Nat.add_comm]
      rw [List.length_cons, hwidth] at h
      rw [List.length_drop]
      omega

theorem getElem?_dumpRows (origin : Word) {bytes : List Byte} {row : Nat}
    (h : dumpWidth * row < bytes.length) :
    (dumpRows origin bytes)[row]? = some (dumpRow (origin + UInt16.ofNat (dumpWidth * row))
      ((bytes.drop (dumpWidth * row)).take dumpWidth)) := by
  rw [dumpRows, List.getElem?_map, List.getElem?_zipIdx, getElem?_dumpChunks h]
  simp

/-- What is printed of an image is its rows. -/
theorem Terminal.lines_putImage (colour : Bool) (paint : Ink → Text → Text) (origin : Word)
    (bytes : List Byte) :
    Text.lines ((Terminal.mk false colour paint).putImage .result origin bytes) =
      dumpRows origin bytes := by
  refine lines_putLines colour paint fun row hrow => ?_
  obtain ⟨⟨chunk, i⟩, hchunk, rfl⟩ := List.mem_map.1 hrow
  exact isLine_dumpRow _ (ne_nil_of_mem_dumpChunks (List.fst_mem_of_mem_zipIdx hchunk))

/-- Byte `n` is shown `n` addresses behind the origin. -/
theorem dumpRows_shows (origin : Word) {bytes : List Byte} {n : Nat} {b : Byte}
    (h : bytes[n]? = some b) :
    ∃ row, (dumpRows origin bytes)[n / dumpWidth]? = some row ∧
      RowShows row (origin + UInt16.ofNat n) b := by
  have hn : n < bytes.length := (List.getElem?_eq_some_iff.1 h).1
  have hsplit : dumpWidth * (n / dumpWidth) + n % dumpWidth = n := Nat.div_add_mod ..
  have hcolumn : ((bytes.drop (dumpWidth * (n / dumpWidth))).take dumpWidth)[n % dumpWidth]? =
      some b := by
    rw [List.getElem?_take_of_lt (Nat.mod_lt n (by decide)), List.getElem?_drop, hsplit, h]
  refine ⟨_, getElem?_dumpRows origin (by omega), _, _, n % dumpWidth,
    readDumpRow?_dumpRow _ (List.ne_nil_of_mem (List.mem_of_getElem? hcolumn)), hcolumn, ?_⟩
  rw [UInt16.add_assoc, ← UInt16.ofNat_add, hsplit]

/-! ## Addresses of lines -/

theorem Assembly.getElem?_image {a : Assembly} {i k : Nat} {l : PlacedLine} {b : Byte}
    (hl : a.lines[i]? = some l) (hb : l.outcome.code[k]? = some b) :
    a.image[(a.codeBefore i).length + k]? = some b := by
  have hk : k < l.outcome.code.length := (List.getElem?_eq_some_iff.1 hb).1
  rw [image_eq_append hl, List.getElem?_append_right (Nat.le_add_right ..), Nat.add_sub_cancel_left,
    List.getElem?_append_left hk, hb]

namespace Assembler

variable {a : Assembler} {i k : Nat}

/-- No code stands in front of a readable origin. -/
def OriginsFirst (a : Assembler) : Prop :=
  ∀ j < a.statements.length, (a.statements[j]?.bind Statement.target?).isSome = true →
    a.assemble.codeBefore j = []

instance (a : Assembler) : Decidable a.OriginsFirst :=
  inferInstanceAs (Decidable (∀ j < _, _ → _))

theorem OriginsFirst.codeBefore_eq_nil (h : a.OriginsFirst) {s : Statement} {address : Word}
    (hs : a.statements[i]? = some s) (htarget : s.target? = some address) :
    a.assemble.codeBefore i = [] :=
  h i (List.getElem?_eq_some_iff.1 hs).1 (by rw [hs, Option.bind_some, htarget]; rfl)

/-- A readable origin has no code. -/
theorem codeBefore_succ_of_target {s : Statement} {address : Word} (hs : a.statements[i]? = some s)
    (htarget : s.target? = some address) :
    a.assemble.codeBefore (i + 1) = a.assemble.codeBefore i := by
  have hoperation : s.isOperation = false := by
    cases s with
    | operation _ _ _ => cases htarget
    | empty | origin _ _ | finish _ | label _ => rfl
  rw [Assembly.codeBefore_succ (a.getElem?_assemble hs),
    (s.code_outcome_of_not_isOperation hoperation ..).1, List.append_nil]

/-- Behind origins that come first the code in front of a line leads to it from the last origin. -/
theorem OriginsFirst.location_eq (h : a.OriginsFirst) (hi : i ≤ a.statements.length) :
    (a.emissionAt i).location =
      (a.emissionAt i).origin + UInt16.ofNat (a.assemble.codeBefore i).length := by
  induction i with
  | zero => exact (UInt16.add_zero _).symm
  | succ i ih =>
    obtain ⟨s, hs⟩ : ∃ s, a.statements[i]? = some s := ⟨_, List.getElem?_eq_getElem hi⟩
    cases htarget : s.target? with
    | some address =>
      rw [emissionAt_succ hs, Emission.next, htarget, codeBefore_succ_of_target hs htarget,
        h.codeBefore_eq_nil hs htarget]
      exact (UInt16.add_zero _).symm
    | none =>
      rw [emissionAt_succ hs, Emission.next, htarget,
        Assembly.codeBefore_succ (a.getElem?_assemble hs), List.length_append, UInt16.ofNat_add,
        ← UInt16.add_assoc, ← ih (Nat.le_of_succ_le hi)]

/-- Behind a line with code there is no further origin. -/
theorem OriginsFirst.origin_eq (h : a.OriginsFirst) (hcode : a.assemble.HasCode i) (hik : i ≤ k)
    (hk : k ≤ a.statements.length) : (a.emissionAt k).origin = (a.emissionAt i).origin := by
  induction k, hik using Nat.le_induction with
  | base => rfl
  | succ k hik ih =>
    obtain ⟨s, hs⟩ : ∃ s, a.statements[k]? = some s := ⟨_, List.getElem?_eq_getElem hk⟩
    have htarget : s.target? = none := by
      by_contra hne
      obtain ⟨address, htarget⟩ := Option.ne_none_iff_exists'.1 hne
      have hlt := Assembly.length_codeBefore_lt hcode (Nat.lt_succ_of_le hik)
      rw [codeBefore_succ_of_target hs htarget, h.codeBefore_eq_nil hs htarget] at hlt
      exact Nat.not_lt_zero _ hlt
    rw [emissionAt_succ hs, Emission.next, htarget]
    exact ih (Nat.le_of_succ_le hk)

theorem origin_emissionAt_length (a : Assembler) :
    (a.emissionAt a.statements.length).origin = a.assemble.origin := by
  rw [emissionAt, List.take_length]
  rfl

/-- Behind origins that come first a line with code lies where the code in front of it ends. -/
theorem OriginsFirst.address_eq (h : a.OriginsFirst) {l : PlacedLine}
    (hl : a.assemble.lines[i]? = some l) (hcode : l.outcome.code ≠ []) :
    l.address = a.assemble.origin + UInt16.ofNat (a.assemble.codeBefore i).length := by
  have hi : i < a.statements.length := by
    rw [← length_assemble]
    exact (List.getElem?_eq_some_iff.1 hl).1
  have hline := a.getElem?_assemble (List.getElem?_eq_getElem hi)
  rw [hl, Option.some.injEq] at hline
  rw [← a.origin_emissionAt_length, h.origin_eq ⟨l, hl, hcode⟩ (Nat.le_of_lt hi) (Nat.le_refl _),
    ← h.location_eq (Nat.le_of_lt hi), hline]

end Assembler

/-! ## The dump of an assembly -/

/-- **Where a dump shows code.** In the lines that a dump prints, every byte of every line stands as
far behind the last origin as it has code in front of it. That is the address at which assembly put
the byte exactly if the code in front of its line leads from the last origin to the line, as it
always does when no code stands in front of a readable origin. -/
theorem dump_shows_code (colour : Bool) (paint : Ink → Text → Text) (lines : List Text)
    (base : Word) {i k : Nat} {l : PlacedLine} {b : Byte}
    (hl : ((Assembler.ofLines lines).withOrigin base).assemble.lines[i]? = some l)
    (hb : l.outcome.code[k]? = some b) :
    let m := (Assembler.ofLines lines).withOrigin base
    let a := m.assemble
    let rows := Text.lines ((Terminal.mk false colour paint).putImage .result a.origin a.image)
    let place := (a.codeBefore i).length
    let shown := a.origin + UInt16.ofNat (place + k)
    (∃ row, rows[(place + k) / dumpWidth]? = some row ∧ RowShows row shown b) ∧
      (shown = l.address + UInt16.ofNat k ↔ a.origin + UInt16.ofNat place = l.address) ∧
      (m.OriginsFirst → shown = l.address + UInt16.ofNat k) := by
  intro m a rows place shown
  have hshown : shown = a.origin + UInt16.ofNat place + UInt16.ofNat k := by
    rw [UInt16.add_assoc, ← UInt16.ofNat_add]
  refine ⟨?_, ?_, fun h => ?_⟩
  · have hrows : rows = dumpRows a.origin a.image := Terminal.lines_putImage colour paint _ _
    rw [hrows]
    exact dumpRows_shows a.origin (Assembly.getElem?_image hl hb)
  · rw [hshown, UInt16.add_left_inj]
  · have hcode : l.outcome.code ≠ [] := List.ne_nil_of_mem (List.mem_of_getElem? hb)
    rw [hshown, h.address_eq hl hcode]

/-- Origins that come first: all bytes are shown where they are. -/
theorem dump_shows_code_behind_origins :
    let lines : List Text := ["ORG $1000", "ORG $20FF", "LOOP LDAA #$05", "BRA LOOP"]
    let m := (Assembler.ofLines lines).withOrigin 0xC000
    let a := m.assemble
    let rows := Text.lines ((Terminal.mk false true Text.paint).putImage .result a.origin a.image)
    a.lines[3]? = some ⟨0x2101, .bytes [0x20, 0xFC]⟩ ∧
      ∃ row, rows[0]? = some row ∧ RowShows row 0x2102 0xFC := by
  intro lines m a rows
  have hl : a.lines[3]? = some ⟨0x2101, .bytes [0x20, 0xFC]⟩ := by decide +kernel
  have hrow : ((a.codeBefore 3).length + 1) / dumpWidth = 0 := by decide +kernel
  have horigins : m.OriginsFirst := by decide +kernel
  obtain ⟨⟨row, hrows, hshows⟩, -, htrue⟩ :=
    dump_shows_code true Text.paint lines 0xC000 (k := 1) (b := 0xFC) hl rfl
  refine ⟨hl, row, ?_, ?_⟩
  · rwa [hrow] at hrows
  · rwa [htrue horigins] at hshows

/-- Code in front of the last origin is shown behind it. -/
theorem dump_shows_code_elsewhere :
    let a := ((Assembler.ofLines ["NOP", "ORG $2000", "INX"]).withOrigin 0xC000).assemble
    let rows := Text.lines ((Terminal.mk false true Text.paint).putImage .result a.origin a.image)
    a.lines[0]? = some ⟨0xC000, .bytes [0x01]⟩ ∧ rows = [("2000: 01 08" : Text)] ∧
      ¬∃ row ∈ rows, RowShows row (0xC000 + UInt16.ofNat 0) 0x01 := by
  intro a rows
  have hrows : rows = [("2000: 01 08" : Text)] := by decide +kernel
  refine ⟨by decide +kernel, hrows, ?_⟩
  rintro ⟨row, hrow, start, bytes, column, hread, hb, haddress⟩
  rw [hrows, List.mem_singleton] at hrow
  have hread' : readDumpRow? "2000: 01 08" = some (0x2000, [0x01, 0x08]) := by decide +kernel
  rw [hrow, hread', Option.some.injEq, Prod.mk.injEq] at hread
  obtain ⟨rfl, rfl⟩ := hread
  match column, hb with
  | 0, _ => exact absurd haddress (by decide)
  | 1, hb => exact absurd hb (by decide)

end Mc6800
