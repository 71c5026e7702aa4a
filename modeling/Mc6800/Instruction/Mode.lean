import Mc6800.Text.Basic

/-!
# Addressing modes

How an instruction names its operand. The mode fixes the length of the instruction, and the shape
of an operand as it is written may stand for more than one mode (`Mode.readings`).
-/

set_option autoImplicit false

namespace Mc6800

/-- The addressing modes. -/
inductive Mode where
  /-- A byte in the instruction: `#5`. -/
  | immediate
  /-- A word in the instruction: `#$1234`. -/
  | immediate16
  /-- A one-byte address: `$10`. -/
  | direct
  /-- A one-byte offset to the index register: `5,X`. -/
  | indexed
  /-- A two-byte address: `$C000`. -/
  | extended
  /-- A signed one-byte distance from the end of the instruction, written as its target. -/
  | relative
  /-- No operand. -/
  | inherent
  deriving DecidableEq, Repr

namespace Mode

/-- The number of bytes of an instruction in this mode, its opcode included. -/
def length : Mode → Nat
  | inherent => 1
  | immediate | direct | indexed | relative => 2
  | immediate16 | extended => 3

/-- The short name of a mode. -/
def name : Mode → Text
  | immediate => "IMM"
  | immediate16 => "IMM16"
  | direct => "DIR"
  | indexed => "IDX"
  | extended => "EXT"
  | relative => "REL"
  | inherent => "INH"

/-- All modes. -/
def all : List Mode :=
  [immediate, immediate16, direct, indexed, extended, relative, inherent]

/-- The mode with this short name. -/
def ofName? (t : Text) : Option Mode := all.find? fun m => m.name == t

/-- The modes that an operand of this shape may be meant in, the likeliest first. A small immediate
may belong to a word register, a name may be a branch target or an address, and so may a numeral. -/
def readings : Mode → List Mode
  | immediate => [immediate, immediate16]
  | immediate16 => [immediate16]
  | direct => [direct, relative]
  | indexed => [indexed]
  | extended => [extended, relative]
  | relative => [relative, extended]
  | inherent => [inherent]

theorem ofName?_name (m : Mode) : ofName? m.name = some m := by cases m <;> decide

theorem mem_all (m : Mode) : m ∈ all := by cases m <;> decide

theorem mem_readings_self (m : Mode) : m ∈ m.readings := by cases m <;> decide

theorem length_pos (m : Mode) : 0 < m.length := by cases m <;> decide

theorem length_le_three (m : Mode) : m.length ≤ 3 := by cases m <;> decide

end Mode

end Mc6800
