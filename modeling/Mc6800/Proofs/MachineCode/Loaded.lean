import Mc6800.Proofs.MachineCode.Lookup

/-!
# The loaded program of an assembly

Loaded as machine code text, the lines of an assembly lie one behind the other from the load
address, wherever they were assembled (`Assembly.addressBefore`). While there are more addresses
than bytes, a line with code is the only one at its address (`IsLoadable.indexOf?_loaded_iff`), so
the address of any line leads to the first code from there (`IsLoadable.indexOf?_of_isNextCode`) or
nowhere if there is none. Assembly put a line at that address and its displacement
(`Assembler.displacement`), which only a readable origin changes.
-/

set_option autoImplicit false

namespace Mc6800

namespace Assembly

/-! ## Addresses of lines -/

/-- The code of the first `i` lines. -/
def codeBefore (a : Assembly) (i : Nat) : List Byte :=
  (a.lines.take i).flatMap fun l => l.outcome.code

/-- The address behind the code of the first `i` lines. -/
def addressBefore (a : Assembly) (i : Nat) : Word :=
  loadAddress + UInt16.ofNat (a.codeBefore i).length

/-- The program in the machine code text. -/
def loaded (a : Assembly) : Program := Program.parse a.machineCode loadAddress

/-- Whether line `i` has code. -/
def HasCode (a : Assembly) (i : Nat) : Prop := ∃ l, a.lines[i]? = some l ∧ l.outcome.code ≠ []

/-- Line `k` is the first one with code from line `d` on. -/
def IsNextCode (a : Assembly) (d k : Nat) : Prop :=
  d ≤ k ∧ a.HasCode k ∧ ∀ i, d ≤ i → i < k → ¬a.HasCode i

variable {a : Assembly} {i k d : Nat}

theorem codeBefore_succ {l : PlacedLine} (hl : a.lines[i]? = some l) :
    a.codeBefore (i + 1) = a.codeBefore i ++ l.outcome.code := by
  rw [codeBefore, List.take_add_one, hl, Option.toList_some, List.flatMap_append,
    List.flatMap_singleton, ← codeBefore]

theorem addressBefore_succ {l : PlacedLine} (hl : a.lines[i]? = some l) :
    a.addressBefore (i + 1) = a.addressBefore i + UInt16.ofNat l.outcome.code.length := by
  rw [addressBefore, codeBefore_succ hl, List.length_append, UInt16.ofNat_add, ← UInt16.add_assoc,
    ← addressBefore]

theorem image_eq_append {l : PlacedLine} (hl : a.lines[i]? = some l) :
    a.image = a.codeBefore i ++ (l.outcome.code ++
      (a.lines.drop (i + 1)).flatMap fun l => l.outcome.code) := by
  rw [← List.append_assoc, ← codeBefore_succ hl, codeBefore, ← List.flatMap_append,
    List.take_append_drop, image]

theorem codeBefore_eq_image (h : a.lines.length ≤ i) : a.codeBefore i = a.image := by
  rw [codeBefore, List.take_of_length_le h, image]

theorem length_codeBefore_mono (h : i ≤ k) :
    (a.codeBefore i).length ≤ (a.codeBefore k).length := by
  obtain ⟨more, rfl⟩ := Nat.exists_eq_add_of_le h
  rw [codeBefore, codeBefore, List.take_add, List.flatMap_append, List.length_append]
  exact Nat.le_add_right ..

theorem length_codeBefore_le (i : Nat) : (a.codeBefore i).length ≤ a.image.length := by
  rw [← codeBefore_eq_image (Nat.le_max_right i a.lines.length)]
  exact length_codeBefore_mono (Nat.le_max_left ..)

theorem length_codeBefore_lt (hi : a.HasCode i) (h : i < k) :
    (a.codeBefore i).length < (a.codeBefore k).length := by
  obtain ⟨l, hl, hcode⟩ := hi
  exact length_flatMap_take_lt hl hcode h

theorem codeBefore_eq_of_not_hasCode (h : i ≤ k) (hnot : ∀ j, i ≤ j → j < k → ¬a.HasCode j) :
    a.codeBefore k = a.codeBefore i := by
  induction k, h using Nat.le_induction with
  | base => rfl
  | succ k hk ih =>
    rw [← ih fun j hj hjk => hnot j hj (by omega)]
    cases hl : a.lines[k]? with
    | none =>
      have hlength := List.getElem?_eq_none_iff.1 hl
      rw [codeBefore, codeBefore, List.take_of_length_le hlength,
        List.take_of_length_le (Nat.le_succ_of_le hlength)]
    | some l =>
      have hcode : l.outcome.code = [] := by
        by_contra hcode
        exact hnot k hk (Nat.lt_succ_self k) ⟨l, hl, hcode⟩
      rw [codeBefore_succ hl, hcode, List.append_nil]

/-- The line that the machine code text may lose has no code. -/
theorem HasCode.lt_length (h : a.HasCode i) : i < a.savedLines.length := by
  obtain ⟨l, hl, hcode⟩ := h
  obtain ⟨lost, hlines, hlost⟩ := a.exists_lines_eq_append
  by_contra hi
  rw [hlines, List.getElem?_append_right (Nat.not_lt.1 hi)] at hl
  rw [hlost l (List.mem_of_getElem? hl)] at hcode
  exact hcode rfl

theorem codeBefore_of_le (hi : a.savedLines.length ≤ i) : a.codeBefore i = a.image := by
  rw [← codeBefore_eq_image (Nat.le_max_right i a.lines.length)]
  refine (codeBefore_eq_of_not_hasCode (Nat.le_max_left ..) fun j hj _ hcode => ?_).symm
  have := hcode.lt_length
  omega

theorem IsNextCode.addressBefore_eq (h : a.IsNextCode d k) :
    a.addressBefore k = a.addressBefore d := by
  obtain ⟨hle, -, hnot⟩ := h
  rw [addressBefore, addressBefore, codeBefore_eq_of_not_hasCode hle hnot]

theorem exists_isNextCode (h : ∃ i, d ≤ i ∧ a.HasCode i) : ∃ k, a.IsNextCode d k := by
  obtain ⟨i, hi, hcode⟩ := h
  -- By the distance from `d`: either `i` is the first one or there is a nearer one.
  induction i using Nat.strongRecOn with
  | ind i ih =>
    by_cases hfirst : ∃ j, d ≤ j ∧ j < i ∧ a.HasCode j
    · obtain ⟨j, hj, hji, hcode'⟩ := hfirst
      exact ih j hji hj hcode'
    · exact ⟨i, hi, hcode, fun j hj hji hcode' => hfirst ⟨j, hj, hji, hcode'⟩⟩

/-! ## Looking addresses up -/

/-- The machine code text is read back, and there are more addresses than bytes. -/
structure IsLoadable (a : Assembly) : Prop where
  readable : ∀ l ∈ a.lines, l.outcome.IsReadable
  size : a.image.length ≤ 65535

namespace IsLoadable

variable {search : Search}

theorem addressBefore_inj (ha : a.IsLoadable) :
    a.addressBefore i = a.addressBefore k ↔ (a.codeBefore i).length = (a.codeBefore k).length := by
  have hsize := ha.size
  have hi := a.length_codeBefore_le i
  have hk := a.length_codeBefore_le k
  rw [addressBefore, addressBefore, UInt16.add_right_inj]
  refine ⟨fun h => ?_, fun h => by rw [h]⟩
  have h := congrArg UInt16.toNat h
  rw [UInt16.toNat_ofNat', UInt16.toNat_ofNat'] at h
  omega

theorem size_loaded (ha : a.IsLoadable) : a.loaded.size = a.savedLines.length := by
  rw [loaded, parse_machineCode_eq ha.readable, Program.size, Program.length_place, List.length_map]

theorem getElem?_loaded (ha : a.IsLoadable) (hi : i < a.loaded.size) :
    ∃ l, a.lines[i]? = some l ∧
      a.loaded.entries[i]? = some ⟨a.addressBefore i, l.outcome.toCodeLine⟩ :=
  getElem?_parse_machineCode ha.readable loadAddress (ha.size_loaded ▸ hi)

theorem lt_size_of_hasCode (ha : a.IsLoadable) (h : a.HasCode i) : i < a.loaded.size := by
  rw [ha.size_loaded]
  exact h.lt_length

theorem isUnambiguous_loaded (ha : a.IsLoadable) : a.loaded.IsUnambiguous :=
  Program.isUnambiguous_machineCode ha.readable (Nat.le_succ_of_le ha.size) loadAddress

/-- The line that is found from an address is the one whose code begins there. -/
theorem indexOf?_loaded_iff (ha : a.IsLoadable) {address : Word} :
    a.loaded.indexOf? search address = some k ↔ a.HasCode k ∧ a.addressBefore k = address := by
  rw [Program.indexOf?, ha.isUnambiguous_loaded.indexFrom?_eq_some_iff]
  constructor
  · rintro ⟨e, he, hbegins⟩
    obtain ⟨l, hl, hentry⟩ := ha.getElem?_loaded (List.getElem?_eq_some_iff.1 he).1
    rw [he, Option.some.injEq] at hentry
    rw [hentry, Entry.BeginsAt, LineOutcome.code_toCodeLine] at hbegins
    exact ⟨⟨l, hl, hbegins.2⟩, hbegins.1⟩
  · rintro ⟨hcode, haddress⟩
    obtain ⟨l, hl, he⟩ := ha.getElem?_loaded (ha.lt_size_of_hasCode hcode)
    obtain ⟨l', hl', hne⟩ := hcode
    rw [hl, Option.some.injEq] at hl'
    refine ⟨_, he, haddress, ?_⟩
    rwa [LineOutcome.code_toCodeLine, hl']

theorem indexOf?_loaded_eq_none_iff (ha : a.IsLoadable) {address : Word} :
    a.loaded.indexOf? search address = none ↔ ∀ i, a.HasCode i → a.addressBefore i ≠ address := by
  constructor
  · intro hindex i hcode haddress
    rw [ha.indexOf?_loaded_iff.2 ⟨hcode, haddress⟩] at hindex
    cases hindex
  · intro hnot
    cases hindex : a.loaded.indexOf? search address with
    | none => rfl
    | some i =>
      obtain ⟨hcode, haddress⟩ := ha.indexOf?_loaded_iff.1 hindex
      exact absurd haddress (hnot i hcode)

theorem indexOf?_of_isNextCode (ha : a.IsLoadable) (h : a.IsNextCode d k) :
    a.loaded.indexOf? search (a.addressBefore d) = some k :=
  ha.indexOf?_loaded_iff.2 ⟨h.2.1, h.addressBefore_eq⟩

theorem indexOf?_of_no_code (ha : a.IsLoadable) (h : ∀ i, d ≤ i → ¬a.HasCode i) :
    a.loaded.indexOf? search (a.addressBefore d) = none := by
  rw [ha.indexOf?_loaded_eq_none_iff]
  intro i hcode haddress
  have hlength := ha.addressBefore_inj.1 haddress
  by_cases hi : d ≤ i
  · exact h i hi hcode
  · have := length_codeBefore_lt hcode (Nat.lt_of_not_le hi)
    omega

end IsLoadable

end Assembly

/-! ## Displacement -/

namespace Assembler

variable {a : Assembler} {i k : Nat} {st : Statement}

/-- How far from its place in the loaded program line `i` was assembled. -/
def displacement (a : Assembler) (i : Nat) : Word :=
  (a.emissionAt i).location - a.assemble.addressBefore i

theorem location_emissionAt (a : Assembler) (i : Nat) :
    (a.emissionAt i).location = a.assemble.addressBefore i + a.displacement i := by
  rw [displacement]
  grind

/-- A readable origin displaces the next line from its place. -/
theorem displacement_succ_of_target {address : Word} (hst : a.statements[i]? = some st)
    (htarget : st.target? = some address) :
    a.displacement (i + 1) = address - a.assemble.addressBefore (i + 1) := by
  rw [displacement, emissionAt_succ hst, Emission.next, htarget]

/-- Any other line displaces the next one as far as itself. -/
theorem displacement_succ (hst : a.statements[i]? = some st) (htarget : st.target? = none) :
    a.displacement (i + 1) = a.displacement i := by
  rw [displacement, emissionAt_succ hst, Emission.next, htarget,
    Assembly.addressBefore_succ (a.getElem?_assemble hst), displacement]
  grind

theorem displacement_eq_of_le (h : i ≤ k) (hk : k ≤ a.statements.length)
    (hnone : ∀ j t, i ≤ j → j < k → a.statements[j]? = some t → t.target? = none) :
    a.displacement k = a.displacement i := by
  induction k, h using Nat.le_induction with
  | base => rfl
  | succ k hik ih =>
    have hst : a.statements[k]? = some a.statements[k] := List.getElem?_eq_getElem hk
    rw [displacement_succ hst (hnone k _ hik (Nat.lt_succ_self k) hst)]
    exact ih (Nat.le_of_succ_le hk) fun j t hj hjk => hnone j t hj (by omega)

/-- No readable origin stands between two lines, whichever comes first. -/
def NoOriginBetween (a : Assembler) (i k : Nat) : Prop :=
  ∀ j t, min i k ≤ j → j < max i k → a.statements[j]? = some t → t.target? = none

/-- Lines between which there is no readable origin are displaced alike. -/
theorem displacement_eq (hi : i ≤ a.statements.length) (hk : k ≤ a.statements.length)
    (hnone : a.NoOriginBetween i k) : a.displacement i = a.displacement k := by
  rcases Nat.le_total i k with hle | hle
  · exact (displacement_eq_of_le hle hk fun j t hj hjk => hnone j t (by omega) (by omega)).symm
  · exact displacement_eq_of_le hle hi fun j t hj hjk => hnone j t (by omega) (by omega)

/-- Every readable origin in front of line `k` goes to where the line behind it is loaded. -/
def OriginsInPlace (a : Assembler) (k : Nat) : Prop :=
  ∀ j t address, j < k → a.statements[j]? = some t → t.target? = some address →
    address = a.assemble.addressBefore (j + 1)

theorem displacement_eq_zero (hbase : a.base = loadAddress) (hk : k ≤ a.statements.length)
    (horigin : a.OriginsInPlace k) : a.displacement k = 0 := by
  induction k with
  | zero =>
    show a.base - (loadAddress + 0) = 0
    rw [hbase, UInt16.add_zero, UInt16.sub_self]
  | succ k ih =>
    have hst : a.statements[k]? = some a.statements[k] := List.getElem?_eq_getElem hk
    cases htarget : a.statements[k].target? with
    | some address =>
      rw [displacement_succ_of_target hst htarget, horigin k _ address (by omega) hst htarget,
        UInt16.sub_self]
    | none =>
      rw [displacement_succ hst htarget]
      exact ih (by omega) fun j t address hj => horigin j t address (by omega)

end Assembler

end Mc6800
