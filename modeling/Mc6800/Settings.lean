import Mc6800.Text.Blank
import Mc6800.Text.Number

/-!
# Settings

What the user sets outside the command line. Settings are read once, before they are first asked
for; anything else is a mistake of the program that asks.
-/

set_option autoImplicit false

namespace Mc6800

/-- What can be set outside the command line. -/
structure Settings where
  /-- The step ceiling of runs that ask for no other. -/
  stepLimit : Option Nat
  deriving DecidableEq, Repr

namespace Settings

/-- The name under which the step ceiling is set. -/
def stepLimitVariable : Text := "M6800_STEP_LIMIT"

/-- The settings for the value of that variable. A value that is no count counts as none. -/
def ofVariable (value : Option Text) : Settings :=
  ⟨value.bind fun v => Text.readCount? (Text.trim v)⟩

/-- A mistake in the use of settings. -/
inductive Misuse where
  | readBeforeInit
  | initTwice
  deriving DecidableEq, Repr

/-- The mistake, in words. -/
def Misuse.message : Misuse → Text
  | readBeforeInit => "tried to access environment state before initialization"
  | initTwice => "tried to initialize environment state multiple times"

/-- The settings of a program, once they are read. -/
abbrev Slot := Option Settings

/-- Keeps the settings, unless some are kept already. -/
def Slot.init (slot : Slot) (settings : Settings) : Except Misuse Slot :=
  match slot with
  | none => .ok (some settings)
  | some _ => .error .initTwice

/-- The step ceiling that is set, if any. -/
def Slot.stepLimit (slot : Slot) : Except Misuse (Option Nat) :=
  match slot with
  | none => .error .readBeforeInit
  | some settings => .ok settings.stepLimit

/-! ## Colours -/

/-- Whether a variable that switches something is set to anything but zero, if it is set. -/
def isOn? (value : Option Text) : Option Bool := value.map fun v : Text => v != "0"

/-- Whether colours are shown: they are if they are forced, they are not if they are forbidden, and
otherwise they are on a terminal unless they are switched off. -/
def showsColours (forced forbidden colours : Option Text) (isTerminal : Bool) : Bool :=
  if isOn? forced = some true then true
  else if forbidden.isSome then false
  else isTerminal && (isOn? colours).getD true

end Settings

end Mc6800
