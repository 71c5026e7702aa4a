import Mc6800.Text.Number
import Mc6800.Word

/-!
# The processor's state

Two accumulators, an index register, a program counter and a memory. Memory that was never written
reads as zero, but only written cells are listed, in order of their addresses. Condition codes and
the stack are not part of the state.
-/

set_option autoImplicit false

namespace Mc6800

/-! ## Registers -/

/-- The registers. -/
inductive Register where
  /-- The first accumulator. -/
  | a
  /-- The second accumulator. -/
  | b
  /-- The index register. -/
  | x
  /-- The program counter. -/
  | pc
  deriving DecidableEq, Repr

namespace Register

/-- All registers, in the order in which they are shown. -/
def all : List Register := [a, b, x, pc]

/-- Whether the register holds a word. -/
def isWide : Register → Bool
  | a | b => false
  | x | pc => true

/-- The register as it is written. -/
def name : Register → Text
  | a => "A"
  | b => "B"
  | x => "X"
  | pc => "PC"

end Register

/-! ## Memory -/

/-- The cells that were written, by ascending address. -/
structure Memory where
  cells : List (Word × Byte)
  deriving DecidableEq, Repr

namespace Memory

/-- The memory before the first write. -/
def empty : Memory := ⟨[]⟩

/-- The value of a cell among cells by ascending address; zero if it is not there. -/
def find (address : Word) : List (Word × Byte) → Byte
  | [] => 0
  | cell :: rest => if cell.1 = address then cell.2 else find address rest

/-- The cells with one more value, in the place that its address asks for. -/
def put (address : Word) (value : Byte) : List (Word × Byte) → List (Word × Byte)
  | [] => [(address, value)]
  | cell :: rest =>
    if address < cell.1 then (address, value) :: cell :: rest
    else if cell.1 = address then (address, value) :: rest
    else cell :: put address value rest

/-- The byte at an address. -/
def read (m : Memory) (address : Word) : Byte := find address m.cells

/-- The memory with a byte written to an address. -/
def write (m : Memory) (address : Word) (value : Byte) : Memory := ⟨put address value m.cells⟩

/-- The word whose upper byte is at an address and its lower byte at the next. -/
def readWord (m : Memory) (address : Word) : Word :=
  Word.ofBytes (m.read address) (m.read (address + 1))

/-- The memory with a word written to an address and the next. -/
def writeWord (m : Memory) (address value : Word) : Memory :=
  (m.write address (Word.high value)).write (address + 1) (Word.low value)

/-- The memory with cells written in turn. -/
def ofCells (cells : List (Word × Byte)) : Memory :=
  cells.foldl (fun m cell => m.write cell.1 cell.2) empty

/-- Whether nothing was written. -/
def isEmpty (m : Memory) : Bool := m.cells.isEmpty

@[simp] theorem read_empty (address : Word) : empty.read address = 0 := rfl

theorem find_put (address query : Word) (value : Byte) (cells : List (Word × Byte)) :
    find query (put address value cells) = if query = address then value else find query cells := by
  induction cells with
  | nil => grind [put, find]
  | cons cell rest ih => grind [put, find]

/-- Cells by ascending address stay so when one is written. -/
theorem pairwise_put {address : Word} {value : Byte} {cells : List (Word × Byte)}
    (h : cells.Pairwise fun c d => c.1 < d.1) :
    (put address value cells).Pairwise fun c d => c.1 < d.1 := by
  have hmem : ∀ {cells : List (Word × Byte)} {c : Word × Byte}, c ∈ put address value cells →
      c.1 = address ∨ c ∈ cells := by
    intro cells
    induction cells with
    | nil => intro c hc; simp_all [put]
    | cons d rest ih => intro c hc; grind [put]
  induction cells with
  | nil => simp [put]
  | cons d rest ih =>
    have hrest := List.pairwise_cons.1 h
    unfold put
    split
    · next hlt =>
      refine List.pairwise_cons.2 ⟨fun c hc => ?_, h⟩
      rcases List.mem_cons.1 hc with rfl | hc
      · exact hlt
      · exact UInt16.lt_trans hlt (hrest.1 c hc)
    · next hnlt =>
      split
      · next heq => exact List.pairwise_cons.2 ⟨fun c hc => heq ▸ hrest.1 c hc, hrest.2⟩
      · next hne =>
        refine List.pairwise_cons.2 ⟨fun c hc => ?_, ih hrest.2⟩
        rcases hmem hc with hc | hc
        · rw [hc]
          exact UInt16.lt_of_le_of_ne (UInt16.not_lt.1 hnlt) hne
        · exact hrest.1 c hc

/-- A written byte is read at its address, and every other address reads as before. -/
theorem read_write (m : Memory) (address query : Word) (value : Byte) :
    (m.write address value).read query = if query = address then value else m.read query :=
  find_put ..

/-- A written word is read back. -/
theorem readWord_writeWord (m : Memory) (address value : Word) :
    (m.writeWord address value).readWord address = value := by
  have h : address ≠ address + 1 := by
    intro h
    have := congrArg UInt16.toNat h
    rw [UInt16.toNat_add, UInt16.toNat_one] at this
    have := address.toNat_lt
    omega
  simp [readWord, writeWord, read_write, h, Word.ofBytes_high_low]

end Memory

/-! ## The whole state -/

/-- The processor and its memory. -/
structure Cpu where
  a : Byte
  b : Byte
  x : Word
  pc : Word
  memory : Memory
  deriving DecidableEq, Repr

namespace Cpu

/-- All registers zero but for the program counter, and nothing written. -/
def reset (pc : Word) : Cpu := ⟨0, 0, 0, pc, .empty⟩

/-- The content of a register; a byte counts as a word below 256. -/
def register (c : Cpu) : Register → Word
  | .a => c.a.toUInt16
  | .b => c.b.toUInt16
  | .x => c.x
  | .pc => c.pc

end Cpu

end Mc6800
