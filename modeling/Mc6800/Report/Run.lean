import Mc6800.Cpu.Basic
import Mc6800.Terminal
import Mc6800.Trace

/-!
# Reports of a run

The trace of each step in the ink of its kind, and the registers in a table, or one by one on a
minimal terminal.
-/

set_option autoImplicit false

namespace Mc6800

/-- The ink of a trace, if it has one. -/
def Trace.ink? : Trace → Option Ink
  | executed _ _ .notSimulated => some .dimmed
  | executed .. | blank _ => none
  | undecodable .. | unknownOpcode .. => some .yellow
  | limitReached _ | notLoaded => some .red
  | completed => some .green

/-- The channel that a trace goes to instead of the one asked for: blank lines are decoration. -/
def Trace.channel (asked : Channel) : Trace → Channel
  | blank _ => .passing
  | _ => asked

/-! ## Registers -/

/-- The content of a register in base sixteen, signed and unsigned, in columns. -/
def registerCells (r : Register) (value : Word) : Text :=
  let number := fun v : Int => (Text.ofInt v).leftpad 6 ' '
  if r.isWide then
    "0x" ++ Text.lower (Text.ofWord value) ++ "  " ++ number (Word.signed value) ++ "  " ++
      number value.toNat
  else
    "  0x" ++ Text.lower (Text.ofByte (Word.low value)) ++ "  " ++
      number (Byte.signed (Word.low value)) ++ "  " ++ number value.toNat

/-- The table of registers, in the pieces in which it is printed. -/
def registerTable (c : Cpu) : List Text :=
  let faint := fun s : Text => escapeSequence "2" ++ s ++ resetSequence
  let edge := List.replicate 27 '─'
  let row := fun r : Register =>
    [faint "│",
      " " ++ escapeSequence "1" ++ r.name.rightpad 3 ' ' ++ resetSequence ++ "  ",
      registerCells r (c.register r),
      " " ++ faint "│" ++ "\n"]
  [faint ("┌" ++ edge ++ "┐") ++ "\n",
    escapeSequence "2" ++ "│         " ++ escapeSequence "3" ++ "hex     int    uint" ++
      resetSequence ++ faint " │" ++ "\n"] ++
    Register.all.flatMap row ++
    [faint ("└" ++ edge ++ "┘") ++ "\n"]

/-- The registers one by one. -/
def registerLines (c : Cpu) : List Text :=
  Register.all.map fun r => r.name ++ " " ++ Text.ofNat (c.register r).toNat ++ "\n"

namespace Terminal

/-- What printing a trace puts out. -/
def putTrace (t : Terminal) (channel : Channel) (trace : Trace) : Text :=
  let line :=
    match trace.ink? with
    | some ink => t.ink ink trace.render
    | none => trace.render
  t.putLine (trace.channel channel) line

/-- What printing the registers puts out. -/
def putRegisters (t : Terminal) (channel : Channel) (c : Cpu) : Text :=
  (if t.minimal then registerLines c else registerTable c).flatMap (t.put channel)

end Terminal

end Mc6800
