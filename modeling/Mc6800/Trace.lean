import Mc6800.Cpu.Effect
import Mc6800.Instruction.Mnemonic

/-!
# Traces

What one step of a run reports. A trace that concerns a line begins with the program counter in
front of the step.
-/

set_option autoImplicit false

namespace Mc6800

/-- The report of one step. -/
inductive Trace where
  /-- An instruction was executed. -/
  | executed (pc : Word) (mnemonic : Mnemonic) (effect : Effect)
  | blank (pc : Word)
  /-- The line is no code. -/
  | undecodable (pc : Word) (text : Text)
  /-- No instruction has this opcode. -/
  | unknownOpcode (pc : Word) (opcode : Byte)
  /-- The step ceiling was hit. -/
  | limitReached (limit : Nat)
  | completed
  | notLoaded
  deriving DecidableEq, Repr

namespace Trace

/-- The beginning of a trace that concerns a line. -/
def opening (pc : Word) : Text := "PC: $" ++ Text.ofWord pc ++ " -> "

/-- The trace as it is shown. -/
def render : Trace → Text
  | executed pc mnemonic effect => opening pc ++ mnemonic.name ++ effect.render
  | blank pc => opening pc ++ "blank line skipped"
  | undecodable pc text => opening pc ++ "cannot decode: " ++ text
  | unknownOpcode pc opcode => opening pc ++ "unknown opcode: " ++ Text.ofByte opcode
  | limitReached limit =>
    "Stopped after " ++ Text.ofNat limit ++ " steps (infinite loop detected)"
  | completed => "Simulation complete"
  | notLoaded => "No program loaded"

end Trace

end Mc6800
