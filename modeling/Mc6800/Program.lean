import Mc6800.Search
import Mc6800.Text.Blank
import Mc6800.Text.Lines
import Mc6800.Text.Number

/-!
# Programs

Machine code text read line by line. A line holds the bytes of one instruction as pairs of digits,
or nothing, or text that is no code. Every line has the address at which its bytes lie when the
bytes of all lines are laid out one behind the other; `Program.indexOf?` goes back from an address
to a line whose bytes begin there. There may be more of them if the addresses wrap around; then it
depends on the search by halves which one is found.
-/

set_option autoImplicit false

namespace Mc6800

/-! ## Lines -/

/-- What a line of machine code text holds. -/
inductive CodeLine where
  | blank
  /-- One or more bytes, the opcode first. -/
  | bytes (opcode : Byte) (operands : List Byte)
  /-- Text that is no sequence of bytes, without the blanks around it. -/
  | undecodable (text : Text)
  deriving DecidableEq, Repr

namespace CodeLine

/-- The bytes that words stand for, if each stands for one. -/
def readBytes? : List Text → Option (List Byte)
  | [] => some []
  | word :: rest =>
    match Text.readByte? word, readBytes? rest with
    | some b, some bs => some (b :: bs)
    | _, _ => none

/-- What a line holds. -/
def parse (line : Text) : CodeLine :=
  match Text.trim line with
  | [] => blank
  | body =>
    match readBytes? (Text.words body) with
    | some (opcode :: operands) => bytes opcode operands
    | _ => undecodable body

/-- The bytes of a line. -/
def code : CodeLine → List Byte
  | bytes opcode operands => opcode :: operands
  | blank | undecodable _ => []

end CodeLine

/-! ## Programs -/

/-- A line and the address at which its bytes begin. -/
structure Entry where
  address : Word
  line : CodeLine
  deriving DecidableEq, Repr

namespace Entry

/-- Whether the entry has a byte at its address. -/
def BeginsAt (e : Entry) (address : Word) : Prop := e.address = address ∧ e.line.code ≠ []

instance (e : Entry) (address : Word) : Decidable (e.BeginsAt address) :=
  inferInstanceAs (Decidable (_ ∧ _))

end Entry

/-- Lines of machine code with their addresses. -/
structure Program where
  entries : List Entry
  deriving DecidableEq, Repr

namespace Program

/-- The program without lines. -/
def empty : Program := ⟨[]⟩

/-- Lines laid out from an address. -/
def place (base : Word) : List CodeLine → List Entry
  | [] => []
  | line :: rest => ⟨base, line⟩ :: place (base + UInt16.ofNat line.code.length) rest

/-- The program that a machine code text holds when it is laid out from `base`. -/
def parse (text : Text) (base : Word) : Program :=
  ⟨place base ((Text.lines text).map CodeLine.parse)⟩

/-- The number of lines. -/
def size (p : Program) : Nat := p.entries.length

/-- The number of a line whose bytes begin at an address. The lines at this address from line
`start` on are tried first. If none of them has bytes, all lines are tried in order, since addresses
do not ascend any more where they have wrapped around. -/
def indexFrom? (p : Program) (start : Nat) (address : Word) : Option Nat :=
  let near := (p.entries.drop start).takeWhile fun e => e.address = address
  match near.findIdx? fun e => e.BeginsAt address with
  | some offset => some (start + offset)
  | none => p.entries.findIdx? fun e => e.BeginsAt address

/-- The number of a line whose bytes begin at an address. The lines below the address are passed by
halves, as if the addresses of all lines ascended. -/
def indexOf? (p : Program) (search : Search) (address : Word) : Option Nat :=
  p.indexFrom? (search.point (p.entries.map fun e => decide (e.address < address))) address

theorem length_place (base : Word) (lines : List CodeLine) :
    (place base lines).length = lines.length := by
  induction lines generalizing base with
  | nil => rfl
  | cons line rest ih => simp [place, ih]

/-- A line that is found has its bytes at the address, wherever the search starts. -/
theorem exists_of_indexFrom? {p : Program} {start i : Nat} {address : Word}
    (h : p.indexFrom? start address = some i) :
    ∃ e, p.entries[i]? = some e ∧ e.BeginsAt address := by
  unfold indexFrom? at h
  dsimp only at h
  split at h
  · next offset hnear =>
    cases h
    obtain ⟨hlt, hbegins, -⟩ :=
      List.findIdx?_eq_some_iff_getElem.1 ((List.takeWhile_prefix _).findIdx?_eq_some hnear)
    rw [List.getElem_drop, decide_eq_true_eq] at hbegins
    exact ⟨_, List.getElem?_eq_getElem _, hbegins⟩
  · obtain ⟨hlt, hbegins, -⟩ := List.findIdx?_eq_some_iff_getElem.1 h
    exact ⟨_, List.getElem?_eq_getElem hlt, of_decide_eq_true hbegins⟩

/-- A line that is found is a line of the program. -/
theorem lt_size_of_indexFrom? {p : Program} {start i : Nat} {address : Word}
    (h : p.indexFrom? start address = some i) : i < p.size := by
  obtain ⟨e, he, -⟩ := exists_of_indexFrom? h
  exact (List.getElem?_eq_some_iff.1 he).1

/-- The line that is found from an address has its bytes there. -/
theorem beginsAt_of_indexFrom? {p : Program} {start i : Nat} {address : Word} {e : Entry}
    (h : p.indexFrom? start address = some i) (he : p.entries[i]? = some e) :
    e.BeginsAt address := by
  obtain ⟨g, hg, hbegins⟩ := exists_of_indexFrom? h
  rw [he] at hg
  cases hg
  exact hbegins

end Program

end Mc6800
