import Mc6800.Proofs.MachineCode.RoundTrip

/-!
# Looking up addresses

A line with bytes lies behind the bytes of all lines in front of it, so two such lines have
different addresses as long as there are no more bytes than addresses, even if the addresses wrap
around (`Program.isUnambiguous_parse`). Then it does not matter where a search begins: it finds the
one line whose bytes begin at an address, and nothing only if there is none
(`Program.lookup_exact`).
-/

set_option autoImplicit false

namespace Mc6800

/-- What an item adds to a list stands between what is in front of it and what is behind it. -/
theorem length_flatMap_take_lt {α β : Type} {f : α → List β} {xs : List α} {x : α} {i j : Nat}
    (hx : xs[i]? = some x) (hne : f x ≠ []) (h : i < j) :
    ((xs.take i).flatMap f).length < ((xs.take j).flatMap f).length := by
  obtain ⟨more, rfl⟩ := Nat.exists_eq_add_of_le (Nat.succ_le_of_lt h)
  have hpos := List.length_pos_iff.2 hne
  rw [List.take_add, List.take_add_one, hx, List.flatMap_append, List.flatMap_append,
    Option.toList_some, List.flatMap_singleton, List.length_append, List.length_append]
  omega

namespace Program

variable {p : Program} {start i j : Nat} {e g : Entry} {address : Word}

/-! ## Lines and their addresses -/

/-- No two lines have their bytes at one address. -/
def IsUnambiguous (p : Program) : Prop :=
  ∀ (address : Word) (i j : Nat) (e g : Entry), p.entries[i]? = some e → p.entries[j]? = some g →
    e.BeginsAt address → g.BeginsAt address → i = j

/-- A line with bytes does not lie as far behind the first line as there are addresses. -/
theorem offset_lt {lines : List CodeLine} {line : CodeLine}
    (hsize : (lines.flatMap CodeLine.code).length ≤ 65536) (hline : lines[i]? = some line)
    (hcode : line.code ≠ []) : ((lines.take i).flatMap CodeLine.code).length < 65536 := by
  have hi : i < lines.length := (List.getElem?_eq_some_iff.1 hline).1
  have hlt := length_flatMap_take_lt hline hcode hi
  rw [List.take_length] at hlt
  omega

theorem exists_line_of_beginsAt_place {base : Word} {lines : List CodeLine}
    (he : (place base lines)[i]? = some e) (hbegins : e.BeginsAt address) :
    ∃ line, lines[i]? = some line ∧ line.code ≠ [] ∧
      base + UInt16.ofNat ((lines.take i).flatMap CodeLine.code).length = address := by
  rw [getElem?_place, Option.map_eq_some_iff] at he
  obtain ⟨line, hline, rfl⟩ := he
  exact ⟨line, hline, hbegins.2, hbegins.1⟩

theorem isUnambiguous_place {lines : List CodeLine}
    (hsize : (lines.flatMap CodeLine.code).length ≤ 65536) (base : Word) :
    IsUnambiguous ⟨place base lines⟩ := by
  intro address i j e g he hg hbegins hbegins'
  obtain ⟨line, hline, hcode, haddress⟩ := exists_line_of_beginsAt_place he hbegins
  obtain ⟨line', hline', hcode', haddress'⟩ := exists_line_of_beginsAt_place hg hbegins'
  have hi := offset_lt hsize hline hcode
  have hj := offset_lt hsize hline' hcode'
  have hoffset := UInt16.add_right_inj base |>.1 (haddress.trans haddress'.symm)
  have hoffset := congrArg UInt16.toNat hoffset
  rw [UInt16.toNat_ofNat', UInt16.toNat_ofNat'] at hoffset
  rcases Nat.lt_trichotomy i j with hlt | heq | hgt
  · have := length_flatMap_take_lt hline hcode hlt
    omega
  · exact heq
  · have := length_flatMap_take_lt hline' hcode' hgt
    omega

theorem isUnambiguous_parse {text : Text} {base : Word}
    (hsize : ((parse text base).entries.flatMap fun e => e.line.code).length ≤ 65536) :
    (parse text base).IsUnambiguous := by
  rw [parse, flatMap_place] at hsize
  exact isUnambiguous_place hsize base

/-- The program in a machine code text with no more bytes than addresses. -/
theorem isUnambiguous_machineCode {a : Assembly} (h : ∀ l ∈ a.lines, l.outcome.IsReadable)
    (hsize : a.image.length ≤ 65536) (base : Word) : (parse a.machineCode base).IsUnambiguous := by
  refine isUnambiguous_parse ?_
  rwa [Assembly.flatMap_parse_machineCode h]

/-! ## Searches -/

/-- Whatever a search begins with, it finds nothing only if there is nothing to find. -/
theorem indexFrom?_eq_none_iff :
    p.indexFrom? start address = none ↔ ∀ e ∈ p.entries, ¬e.BeginsAt address := by
  constructor
  · intro h
    unfold indexFrom? at h
    dsimp only at h
    split at h
    · cases h
    · intro e he
      exact of_decide_eq_false (List.findIdx?_eq_none_iff.1 h e he)
  · intro h
    cases hindex : p.indexFrom? start address with
    | none => rfl
    | some i =>
      obtain ⟨e, he, hbegins⟩ := exists_of_indexFrom? hindex
      exact absurd hbegins (h e (List.mem_of_getElem? he))

/-- A search finds the only line whose bytes begin at the address, wherever it begins. -/
theorem IsUnambiguous.indexFrom?_eq_some_iff (hp : p.IsUnambiguous) :
    p.indexFrom? start address = some i ↔ ∃ e, p.entries[i]? = some e ∧ e.BeginsAt address := by
  refine ⟨exists_of_indexFrom?, fun ⟨e, he, hbegins⟩ => ?_⟩
  cases hindex : p.indexFrom? start address with
  | none => exact absurd hbegins (indexFrom?_eq_none_iff.1 hindex e (List.mem_of_getElem? he))
  | some j =>
    obtain ⟨g, hg, hbegins'⟩ := exists_of_indexFrom? hindex
    rw [hp address j i g e hg he hbegins' hbegins]

/-- A search that starts behind the last line tries all lines in order. -/
theorem indexFrom?_size (p : Program) (address : Word) :
    p.indexFrom? p.size address = p.entries.findIdx? fun e => e.BeginsAt address := by
  unfold indexFrom? size
  rw [List.drop_length]
  rfl

theorem IsUnambiguous.indexFrom?_eq_findIdx? (hp : p.IsUnambiguous) (start : Nat) (address : Word) :
    p.indexFrom? start address = p.entries.findIdx? fun e => e.BeginsAt address := by
  rw [← indexFrom?_size]
  ext i
  rw [hp.indexFrom?_eq_some_iff, hp.indexFrom?_eq_some_iff]

/-- **Looking up an address is exact** in a program with no more bytes than addresses: at most one
line has its bytes there, that one is found, and nothing is found only if there is none. It does not
matter where the search begins, so neither does what a search by halves does where addresses have
wrapped around and do not ascend any more: a search of all lines in order finds the same. -/
theorem lookup_exact (search : Search) (text : Text) (base address : Word)
    (hsize : ((parse text base).entries.flatMap fun e => e.line.code).length ≤ 65536) :
    let p := parse text base
    (∀ (i j : Nat) (e g : Entry), p.entries[i]? = some e → p.entries[j]? = some g →
      e.BeginsAt address → g.BeginsAt address → i = j) ∧
    (∀ i, p.indexOf? search address = some i ↔ ∃ e, p.entries[i]? = some e ∧ e.BeginsAt address) ∧
    (p.indexOf? search address = none ↔ ∀ e ∈ p.entries, ¬e.BeginsAt address) ∧
    ∀ start, p.indexFrom? start address = p.indexOf? search address ∧
      p.indexFrom? start address = p.entries.findIdx? fun e => e.BeginsAt address := by
  intro p
  have hp : p.IsUnambiguous := isUnambiguous_parse hsize
  refine ⟨hp address, fun i => hp.indexFrom?_eq_some_iff, indexFrom?_eq_none_iff, fun start => ?_⟩
  rw [indexOf?, hp.indexFrom?_eq_findIdx?, hp.indexFrom?_eq_findIdx?]
  exact ⟨rfl, rfl⟩

/-- Lines with bytes in front of and behind the end of the address space, and two lines without
bytes at the address of the second. -/
theorem lookup_exact_behind_wrap :
    let p := parse "CE 12 34\n\nERROR\n4C\n86 05" 0xFFFE
    (p.entries.flatMap fun e => e.line.code).length ≤ 65536 ∧
      p.entries.map Entry.address = [0xFFFE, 0x0001, 0x0001, 0x0001, 0x0002] ∧
      p.indexOf? .byHalves 0x0001 = some 3 ∧ ∀ start, p.indexFrom? start 0x0001 = some 3 := by
  intro p
  have hsize : (p.entries.flatMap fun e => e.line.code).length ≤ 65536 := by decide +kernel
  obtain ⟨-, hfound, -, hstart⟩ :=
    lookup_exact .byHalves "CE 12 34\n\nERROR\n4C\n86 05" 0xFFFE 0x0001 hsize
  have hindex : p.indexOf? .byHalves 0x0001 = some 3 :=
    (hfound 3).2 ⟨⟨0x0001, .bytes 0x4C []⟩, by decide +kernel, by decide⟩
  exact ⟨hsize, by decide +kernel, hindex, fun start => (hstart start).1.trans hindex⟩

end Program

end Mc6800
