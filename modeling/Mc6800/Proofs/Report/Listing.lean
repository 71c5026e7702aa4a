import Mathlib.Data.List.Basic
import Mc6800.Paint
import Mc6800.Proofs.MachineCode.RoundTrip
import Mc6800.Proofs.Report.Rows
import Mc6800.Proofs.Source.Scanning
import Mc6800.Report.Listing

/-!
# Listings that are read back

A listing has a row for each line of the source, in order, and one more behind each faulty line. In
front of every line stand sixteen columns, since no code takes more than eight of them, and these
columns tell what became of the line (`listing_read_back`).
-/

set_option autoImplicit false

namespace Mc6800

/-! ## Columns -/

/-- What the columns in front of a line of source say: nothing, or an address and the code there. -/
abbrev ListingMark := Option (Word × List Byte)

namespace ListingMark

/-- The columns. Code is padded to eight of them. -/
def columns : ListingMark → Text
  | none => List.replicate 16 ' '
  | some (address, code) =>
    Text.ofWord address ++ "  " ++ Text.ofBytes code ++
      List.replicate (8 - (Text.ofBytes code).length) ' ' ++ "  "

/-- What columns say: nothing if they are blank, and else an address and a line of machine code. -/
def read? (columns : Text) : Option ListingMark :=
  if columns = List.replicate 16 ' ' then some none
  else
    match Text.readDigits? .hexadecimal (columns.take 4), CodeLine.parse (columns.drop 4) with
    | some address, .blank => some (some (UInt16.ofNat address, []))
    | some address, .bytes opcode operands =>
      some (some (UInt16.ofNat address, opcode :: operands))
    | _, _ => none

/-- What columns say is what became of the line: without an address it asks for no code, and with an
address and no code behind it the line is faulty. -/
def Tells : ListingMark → PlacedLine → Prop
  | none, l => l.outcome = .empty
  | some (address, []), l => l.address = address ∧ l.outcome.isFault = true
  | some (address, code), l => l.address = address ∧ l.outcome = .bytes code

/-- The code fits its columns. -/
def Fits (mark : ListingMark) : Prop := ∀ p ∈ mark, p.2.length ≤ 3

variable {mark : ListingMark} {address : Word} {code : List Byte}

theorem length_columns (h : mark.Fits) : mark.columns.length = 16 := by
  cases mark with
  | none => rfl
  | some p =>
    obtain ⟨address, code⟩ := p
    have hcode : code.length ≤ 3 := h _ rfl
    have hlength := Text.length_ofBytes code
    simp only [columns, List.length_append, Text.length_ofWord, List.length_replicate]
    change 4 + 2 + _ + _ + 2 = 16
    omega

/-- Columns with an address do not begin with a blank. -/
theorem head?_columns (address : Word) (code : List Byte) :
    (columns (some (address, code))).head? ≠ some ' ' := by
  have hdigits := (Text.isWordNumeral_ofWord address).not_mem (c := ' ') (by decide)
  intro h
  have hfirst : (columns (some (address, code))).head? = (Text.ofWord address).head? := rfl
  rw [hfirst] at h
  exact hdigits (List.mem_of_head? h)

theorem lineFeed_not_mem_columns (mark : ListingMark) : '\n' ∉ mark.columns := by
  cases mark with
  | none => decide
  | some p =>
    obtain ⟨address, code⟩ := p
    have haddress := (Text.isWordNumeral_ofWord address).not_mem (c := '\n') (by decide)
    have hcode : '\n' ∉ Text.ofBytes code :=
      Text.lineFeed_not_mem_intercalate fun _ => Text.isWord_of_mem_map_ofByte
    simp only [columns, List.mem_append, List.mem_replicate, not_or]
    exact ⟨⟨⟨⟨haddress, by decide⟩, hcode⟩, by simp⟩, by decide⟩

/-- Blanks around a line of machine code do not matter. -/
theorem parse_ofBytes_between {blanks trail : Text} (hb : Text.AllBlank blanks)
    (ht : Text.AllBlank trail) :
    CodeLine.parse (blanks ++ (Text.ofBytes code ++ trail)) =
      CodeLine.parse (Text.ofBytes code) := by
  have htrim : Text.trim (blanks ++ (Text.ofBytes code ++ trail)) =
      Text.trim (Text.ofBytes code) := by
    by_cases hne : code = []
    · subst hne
      have hnil : Text.trimStart (blanks ++ (Text.ofBytes [] ++ trail)) = [] :=
        List.dropWhile_eq_nil_iff.2 (List.forall_mem_append.2 ⟨hb, ht⟩)
      rw [Text.trim, hnil]
      rfl
    · have htrimmed := Text.isTrimmed_ofBytes hne
      have hstart := (Text.span_append hb (htrimmed.beginsFilled_append trail)).2
      rw [Text.trim, Text.trimStart, hstart, Text.trimEnd_append htrimmed ht,
        Text.trim_of_isTrimmed htrimmed]
  unfold CodeLine.parse
  rw [htrim]

/-- Behind the address the columns are a line of machine code. -/
theorem parse_drop_columns (address : Word) (code : List Byte) :
    CodeLine.parse ((columns (some (address, code))).drop 4) =
      CodeLine.parse (Text.ofBytes code) := by
  let padding := List.replicate (8 - (Text.ofBytes code).length) ' '
  have hcolumns : columns (some (address, code)) =
      Text.ofWord address ++ ("  " ++ (Text.ofBytes code ++ (padding ++ "  "))) := by
    simp only [columns, padding, List.append_assoc]
  have hdrop : (columns (some (address, code))).drop 4 =
      "  " ++ (Text.ofBytes code ++ (padding ++ "  ")) := by
    rw [hcolumns]
    rfl
  have hblank : Text.AllBlank "  " := by decide
  have hpadding : Text.AllBlank padding := by
    intro c hc
    rw [(List.mem_replicate.1 hc).2]
    decide
  rw [hdrop]
  exact parse_ofBytes_between hblank (List.forall_mem_append.2 ⟨hpadding, hblank⟩)

theorem read?_columns (mark : ListingMark) : read? mark.columns = some mark := by
  cases mark with
  | none => rfl
  | some p =>
    obtain ⟨address, code⟩ := p
    have hfilled : columns (some (address, code)) ≠ List.replicate 16 ' ' := by
      intro h
      exact head?_columns address code (by rw [h]; rfl)
    have htake : (columns (some (address, code))).take 4 = Text.ofWord address := rfl
    have hvalue : Text.readDigits? .hexadecimal (Text.ofWord address) = some address.toNat :=
      Text.readDigits?_eq_some_iff.2 (Text.isWordNumeral_ofWord address).value
    rw [read?, if_neg hfilled, htake, hvalue, parse_drop_columns]
    cases code with
    | nil => simp [show CodeLine.parse (Text.ofBytes []) = .blank from rfl]
    | cons opcode operands =>
      have hbytes : CodeLine.parse (Text.ofBytes (opcode :: operands)) = .bytes opcode operands :=
        LineOutcome.parse_render (o := .bytes (opcode :: operands)) (List.cons_ne_nil _ _)
      simp [hbytes]

end ListingMark

/-! ## Rows -/

/-- A row of a listing. -/
inductive ListedRow where
  /-- A line of source behind its columns. -/
  | source (mark : ListingMark) (line : Text)
  /-- What is wrong with the line above. -/
  | message (text : Text)
  deriving DecidableEq, Repr

namespace ListedRow

/-- The row as it is printed. -/
def written : ListedRow → Text
  | source mark line => mark.columns ++ line
  | message text => List.replicate 6 ' ' ++ text

/-- What a row of a listing says. A message begins in the seventh column. -/
def read? (row : Text) : Option ListedRow :=
  if row.take 12 = "      ERROR:" then some (message (row.drop 6))
  else (ListingMark.read? (row.take 16)).map fun mark => source mark (row.drop 16)

theorem read?_source {mark : ListingMark} (h : mark.Fits) (line : Text) :
    read? (source mark line).written = some (source mark line) := by
  have hlength := ListingMark.length_columns h
  have htake : (mark.columns ++ line).take 16 = mark.columns := by
    rw [← hlength, List.take_left]
  have hdrop : (mark.columns ++ line).drop 16 = line := by
    rw [← hlength, List.drop_left]
  have hcolumns : (mark.columns ++ line).take 12 ≠ ("      ERROR:" : Text) := by
    rw [List.take_append_of_le_length (by omega)]
    cases mark with
    | none => decide
    | some p =>
      intro hmessage
      refine ListingMark.head?_columns p.1 p.2 ?_
      have hhead := congrArg List.head? hmessage
      rwa [List.head?_take, if_neg (by decide)] at hhead
  rw [written, read?, if_neg hcolumns, htake, hdrop, ListingMark.read?_columns, Option.map_some]

theorem read?_message (text : Text) :
    read? (message ("ERROR:" ++ text)).written = some (message ("ERROR:" ++ text)) := by
  have hmarker : (List.replicate 6 ' ' ++ ("ERROR:" ++ text)).take 12 = ("      ERROR:" : Text) :=
    rfl
  rw [written, read?, if_pos hmarker]
  rfl

end ListedRow

namespace PlacedLine

/-- What the columns in front of a line should say. -/
def mark (l : PlacedLine) : ListingMark :=
  match l.outcome with
  | .empty => none
  | .bytes _ | .fault .. => some (l.address, l.outcome.code)

/-- The rows of a line of source. -/
def listed (l : PlacedLine) (line : Text) : List ListedRow :=
  match l.outcome with
  | .empty | .bytes _ => [.source l.mark line]
  | .fault f _ => [.source l.mark line, .message ("ERROR: " ++ f.message)]

variable {l : PlacedLine}

theorem columns_mark (l : PlacedLine) : l.mark.columns = l.columns := by
  obtain ⟨address, outcome⟩ := l
  cases outcome with
  | empty => rfl
  | bytes code =>
    simp only [mark, columns, ListingMark.columns, LineOutcome.code, List.rightpad,
      List.append_assoc]
  | fault f span =>
    simp only [mark, columns, ListingMark.columns, LineOutcome.code, List.append_assoc]
    rfl

theorem tells_mark (h : l.outcome.IsReadable) : l.mark.Tells l := by
  obtain ⟨address, outcome⟩ := l
  cases outcome with
  | empty => rfl
  | bytes code =>
    cases code with
    | nil => exact absurd rfl h
    | cons opcode operands => exact ⟨rfl, rfl⟩
  | fault f span => exact ⟨rfl, rfl⟩

theorem isWordNumeral_columns (h : l.outcome ≠ .empty) :
    Text.IsWordNumeral (l.mark.columns.take 4) l.address := by
  obtain ⟨address, outcome⟩ := l
  cases outcome with
  | empty => exact absurd rfl h
  | bytes _ | fault _ _ => exact Text.isWordNumeral_ofWord address

theorem read?_listed (h : l.mark.Fits) {line : Text} :
    ∀ row ∈ l.listed line, ListedRow.read? row.written = some row := by
  have hsource := ListedRow.read?_source h line
  unfold listed
  cases l.outcome with
  | empty | bytes _ => simpa using hsource
  | fault f span =>
    refine List.forall_mem_cons.2 ⟨hsource, List.forall_mem_singleton.2 ?_⟩
    exact ListedRow.read?_message (' ' :: f.message)

theorem lineFeed_not_mem_listed (h : l.outcome.IsReadable) {line : Text} (hline : '\n' ∉ line) :
    ∀ row ∈ l.listed line, '\n' ∉ row.written := by
  have hsource : '\n' ∉ (ListedRow.source l.mark line).written :=
    List.not_mem_append (ListingMark.lineFeed_not_mem_columns _) hline
  unfold listed
  cases ho : l.outcome with
  | empty | bytes _ => simpa using hsource
  | fault f span =>
    rw [ho] at h
    refine List.forall_mem_cons.2 ⟨hsource, List.forall_mem_singleton.2 ?_⟩
    exact List.not_mem_append (by decide)
      (List.not_mem_append (by decide) (Fault.lineFeed_not_mem_message h.2))

end PlacedLine

/-! ## The listing of an assembly -/

/-- Rows that end in their only line feeds are found again. -/
theorem Text.segments_flatMap {rows : List Text} (h : ∀ row ∈ rows, '\n' ∉ row) :
    segments (rows.flatMap fun row => row ++ ['\n']) = rows.map fun row => row ++ ['\n'] := by
  induction rows with
  | nil => rfl
  | cons row rest ih =>
    obtain ⟨hrow, hrest⟩ := List.forall_mem_cons.1 h
    rw [List.flatMap_cons, List.append_assoc, List.singleton_append,
      segments_append_lineFeed hrow, ih hrest, List.map_cons]

namespace Terminal

variable (paint : Ink → Text → Text) (channel : Channel)

/-- Without colours a terminal that is not minimal prints a text as it is. -/
theorem put_plain (s : Text) : (Terminal.mk false false paint).put channel s = s := by
  cases channel <;> rfl

theorem putLine_plain (s : Text) :
    (Terminal.mk false false paint).putLine channel s = s ++ ['\n'] := by
  rw [putLine, put_plain, put_plain]
  rfl

theorem putListingRow_plain (l : PlacedLine) (line : Text) :
    (Terminal.mk false false paint).putListingRow channel l line =
      ((l.listed line).map ListedRow.written).flatMap fun row => row ++ ['\n'] := by
  have hrow : (Terminal.mk false false paint).putListingRow channel l line =
      l.listingRow line ++ ['\n'] := by
    unfold putListingRow
    dsimp only
    rw [putLine_plain]
    split <;> rfl
  rw [hrow]
  unfold PlacedLine.listingRow PlacedLine.listed
  cases ho : l.outcome with
  | empty | bytes _ =>
    rw [List.map_singleton, List.flatMap_singleton, ListedRow.written, l.columns_mark]
  | fault f span =>
    have hrender : (LineOutcome.fault f span).render = "ERROR: " ++ f.message := rfl
    rw [List.map_cons, List.map_singleton, List.flatMap_cons, List.flatMap_singleton,
      ListedRow.written, ListedRow.written, l.columns_mark, hrender]
    simp only [List.append_assoc]
    rfl

theorem putListing_plain (a : Assembly) (source : Text) :
    (Terminal.mk false false paint).putListing channel a source =
      (((a.lines.zip (Text.lines source)).flatMap fun (l, line) => l.listed line).map
        ListedRow.written).flatMap fun row => row ++ ['\n'] := by
  rw [putListing, List.map_flatMap, List.flatMap_assoc]
  exact List.flatMap_congr fun (l, line) _ => putListingRow_plain paint channel l line

end Terminal

namespace Assembler

theorem fits_mark (a : Assembler) : ∀ l ∈ a.assemble.lines, l.mark.Fits := by
  intro l hl p hp
  obtain ⟨s, -, location, ho⟩ := a.exists_statement_of_mem_lines hl
  unfold PlacedLine.mark at hp
  cases houtcome : l.outcome with
  | empty =>
    rw [houtcome] at hp
    cases hp
  | bytes code =>
    obtain ⟨i, operand, -, hcode⟩ := s.exists_encode_of_outcome_eq_bytes (ho.symm.trans houtcome)
    have hlength : code.length = i.mode.length := Instruction.length_encode hcode
    rw [houtcome] at hp
    cases hp
    exact hlength ▸ i.mode.length_le_three
  | fault f span =>
    rw [houtcome] at hp
    cases hp
    exact Nat.zero_le 3

end Assembler

/-- **Listings are read back.** Printed on any channel without colours, the listing of a source has
a row for every line in order and one more behind each faulty line, and what a row says can be read
from it. In front of every line there are sixteen columns, which tell what became of it. -/
theorem listing_read_back (paint : Ink → Text → Text) (channel : Channel) (source : Text) :
    let a := assemble source
    let lines := Text.lines source
    let printed := Text.segments ((Terminal.mk false false paint).putListing channel a source)
    let rows := (a.lines.zip lines).flatMap fun (l, line) => l.listed line
    a.lines.length = lines.length ∧
    printed = rows.map (fun row => row.written ++ ['\n']) ∧
    (∀ row ∈ rows, ListedRow.read? row.written = some row) ∧
    ∀ l ∈ a.lines, l.mark.columns.length = 16 ∧
      (l.outcome ≠ .empty → Text.IsWordNumeral (l.mark.columns.take 4) l.address) ∧
      ListingMark.read? l.mark.columns = some l.mark ∧ l.mark.Tells l := by
  intro a lines printed rows
  have hreadable : ∀ l ∈ a.lines, l.outcome.IsReadable :=
    Assembler.isReadable_of_mem_lines source loadAddress
  have hfits : ∀ l ∈ a.lines, l.mark.Fits := (Assembler.ofSource source).fits_mark
  refine ⟨?_, ?_, fun row hrow => ?_, fun l hl => ?_⟩
  · exact (Assembler.length_assemble _).trans (List.length_map _)
  · have hfeed : ∀ row ∈ rows.map ListedRow.written, '\n' ∉ row := by
      intro text htext
      obtain ⟨row, hrow, rfl⟩ := List.mem_map.1 htext
      obtain ⟨⟨l, line⟩, hpair, hrow⟩ := List.mem_flatMap.1 hrow
      obtain ⟨hl, hline⟩ := List.of_mem_zip hpair
      exact l.lineFeed_not_mem_listed (hreadable l hl) (Text.not_mem_of_mem_lines hline) row hrow
    have hprinted := Text.segments_flatMap hfeed
    rw [← Terminal.putListing_plain paint channel a source, List.map_map] at hprinted
    exact hprinted
  · obtain ⟨⟨l, line⟩, hpair, hrow⟩ := List.mem_flatMap.1 hrow
    exact l.read?_listed (hfits l (List.of_mem_zip hpair).1) row hrow
  · exact ⟨ListingMark.length_columns (hfits l hl), PlacedLine.isWordNumeral_columns,
      ListingMark.read?_columns _, PlacedLine.tells_mark (hreadable l hl)⟩

/-- A line with code, and one whose mnemonic does not exist. -/
theorem listing_read_back_with_fault :
    let source : Text := "  ORG $2000\nLOOP LDAA #5\r\n  FOO X\n"
    let a := assemble source
    let lines := Text.lines source
    let printed := Text.segments ((Terminal.mk false false Text.paint).putListing .result a source)
    let coded := ListedRow.source (some (0x2000, [0x86, 0x05])) "LOOP LDAA #5"
    let faulty : PlacedLine := ⟨0x2002, .fault (.invalidInstruction "X") ⟨6, 1⟩⟩
    printed = ["                  ORG $2000\n", "2000  86 05     LOOP LDAA #5\n",
        "2002              FOO X\n", "      ERROR: invalid instruction -> X\n"] ∧
      coded ∈ (a.lines.zip lines).flatMap (fun (l, line) => l.listed line) ∧
      ListedRow.read? "2000  86 05     LOOP LDAA #5" = some coded ∧
      faulty ∈ a.lines ∧ faulty.outcome ≠ .empty ∧ Text.IsWordNumeral "2002" 0x2002 ∧
      ListingMark.Tells (some (0x2002, [])) faulty := by
  intro source a lines printed coded faulty
  obtain ⟨-, hprinted, hread, htell⟩ := listing_read_back Text.paint .result source
  have hcoded : coded ∈ (a.lines.zip lines).flatMap (fun (l, line) => l.listed line) := by
    decide +kernel
  have hfaulty : faulty ∈ a.lines := by decide +kernel
  have hfault : faulty.outcome ≠ .empty := by decide
  have hhead : faulty.mark.columns.take 4 = ("2002" : Text) := by decide +kernel
  obtain ⟨-, hnumeral, -, htells⟩ := htell faulty hfaulty
  rw [hhead] at hnumeral
  exact ⟨hprinted.trans (by decide +kernel), hcoded, hread coded hcoded, hfaulty, hfault,
    hnumeral hfault, htells⟩

end Mc6800
