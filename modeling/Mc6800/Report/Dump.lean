import Mc6800.Cpu.Basic
import Mc6800.Terminal

/-!
# Dumps

Bytes in rows of sixteen, each row behind the address of its first byte, and the written cells of a
memory one by one.
-/

set_option autoImplicit false

namespace Mc6800

/-- The bytes of a full row. -/
def dumpWidth : Nat := 16

/-- The bytes in rows, of which only the last may be shorter than the others. -/
def dumpChunks (bytes : List Byte) : List (List Byte) :=
  match bytes with
  | [] => []
  | b :: rest => (b :: rest.take (dumpWidth - 1)) :: dumpChunks (rest.drop (dumpWidth - 1))
termination_by bytes.length
decreasing_by
  simp only [List.length_drop, List.length_cons]
  omega

/-- The rows hold the bytes in order. -/
theorem flatten_dumpChunks (bytes : List Byte) : (dumpChunks bytes).flatten = bytes := by
  fun_induction dumpChunks bytes with
  | case1 => rfl
  | case2 b rest ih => rw [List.flatten_cons, ih, List.cons_append, List.take_append_drop]

/-- A row of a dump. -/
def dumpRow (address : Word) (bytes : List Byte) : Text :=
  Text.ofWord address ++ ": " ++ Text.ofBytes bytes

/-- The rows of bytes that lie from an address on. -/
def dumpRows (address : Word) (bytes : List Byte) : List Text :=
  (dumpChunks bytes).zipIdx.map fun (chunk, i) =>
    dumpRow (address + UInt16.ofNat (dumpWidth * i)) chunk

/-- The row of a memory cell. -/
def cellRow (address : Word) (value : Byte) : Text :=
  "$" ++ Text.ofWord address ++ " = $" ++ Text.ofByte value ++
    " (" ++ Text.ofNat value.toNat ++ ")"

namespace Terminal

/-- What printing the bytes from an address on puts out. -/
def putImage (t : Terminal) (channel : Channel) (address : Word) (bytes : List Byte) : Text :=
  t.putLines channel (dumpRows address bytes)

/-- What printing a memory puts out. -/
def putMemory (t : Terminal) (channel : Channel) (memory : Memory) : Text :=
  if memory.isEmpty then t.putLine .passing "memory untouched"
  else t.putLines channel (memory.cells.map fun (address, value) => cellRow address value)

end Terminal

end Mc6800
