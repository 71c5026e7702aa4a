import Mc6800.Cpu.Basic

/-!
# Effects

What one instruction reports to have done: the register that it has set or the cell that it has
stored to, the difference that it has taken, or where control goes on.
-/

set_option autoImplicit false

namespace Mc6800

/-- What a comparison subtracts from what. -/
inductive Comparison where
  | accumulatorAWithOperand
  | accumulatorBWithOperand
  | accumulators
  deriving DecidableEq, Repr

/-- The difference that a comparison takes, as it is written. -/
def Comparison.expression : Comparison → Text
  | accumulatorAWithOperand => "A - M"
  | accumulatorBWithOperand => "B - M"
  | accumulators => "A - B"

/-- What an executed instruction reports. -/
inductive Effect where
  /-- The first accumulator holds a byte now. -/
  | setA (value : Byte)
  | setB (value : Byte)
  | setX (value : Word)
  | storeByte (address : Word) (value : Byte)
  /-- A word is stored, its upper byte at the address. -/
  | storeWord (address value : Word)
  /-- A difference is taken and not kept. -/
  | compare (comparison : Comparison) (difference : Int)
  | branch (taken : Bool) (target : Word)
  | jump (target : Word)
  /-- A return from a subroutine, which falls through since no stack is kept. -/
  | fallThrough
  | nothing
  /-- The instruction changes condition codes only. -/
  | notSimulated
  deriving DecidableEq, Repr

namespace Effect

/-- The address at which control goes on, if not at the next instruction. -/
def target? : Effect → Option Word
  | branch true target | jump target => some target
  | _ => none

/-- The end of the trace of an instruction with this effect. -/
def render : Effect → Text
  | setA value => " -> A = " ++ Text.ofNat value.toNat
  | setB value => " -> B = " ++ Text.ofNat value.toNat
  | setX value => " -> X = $" ++ Text.ofWord value
  | storeByte address value => " -> [$" ++ Text.ofWord address ++ "] = " ++ Text.ofNat value.toNat
  | storeWord address value => " -> [$" ++ Text.ofWord address ++ "] = " ++ Text.ofNat value.toNat
  | compare comparison difference =>
    " -> " ++ comparison.expression ++ " = " ++ Text.ofInt difference
  | branch true target => " taken -> $" ++ Text.ofWord target
  | branch false _ => " not taken -> continue"
  | jump target => " -> PC = $" ++ Text.ofWord target
  | fallThrough => " -> return"
  | nothing => " -> no operation"
  | notSimulated => " -> not simulated"

end Effect

end Mc6800
