import Mc6800.Assembly.Passes
import Mc6800.CommandLine.Arguments
import Mc6800.CommandLine.Interaction
import Mc6800.Report.Dump
import Mc6800.Report.Listing
import Mc6800.Report.Run
import Mc6800.Session
import Mc6800.Settings

/-!
# Commands

What each command does. Source is read as a whole, assembled, and shown as far as it goes: faults
are shown with their lines and do not keep the other lines from being assembled or run.
-/

set_option autoImplicit false

namespace Mc6800.CommandLine

open Interaction

/-- What this program says of itself. -/
def greeting : Text :=
  "\nm6800: a two-pass assembler and step emulator for a subset of the Motorola 6800.\n" ++
    "Please use `-h` or `--help` to access the usage instructions and documentation.\n"

/-- The name and the number of this version. -/
def versionLine : Text := "m6800 0.1.0"

/-- How this program is called. -/
def usage : Text :=
  "Usage: m6800 [PATH]\n" ++
    "       m6800 asm NAME [DEST]\n" ++
    "       m6800 check NAME\n" ++
    "       m6800 run [-s|--max-steps N] [-m|--minimal] NAME\n" ++
    "       m6800 dump NAME\n" ++
    "       m6800 watch NAME"

/-! ## Messages -/

/-- Says what is being done, under a heading of twelve columns. -/
def message (t : Terminal) (ink : Ink) (heading text : Text) : Interaction Unit :=
  if t.minimal then done ()
  else say (t.ink ink (heading.leftpad 12 ' ') ++ " " ++ text ++ "\n")

/-- Says what is being done with a file. -/
def fileMessage (t : Terminal) (ink : Ink) (heading path : Text) : Interaction Unit :=
  message t ink heading ("target " ++ path)

/-- Says how many faults there were. -/
def finish (t : Terminal) (a : Assembly) : Interaction Unit :=
  match a.faults.length with
  | 0 => message t .green "Finished" "no errors"
  | n => message t .red "Finished" ("with " ++ Text.ofNat n ++ " errors")

/-! ## Assembling -/

/-- Assembles a file, shows the listing and the labels, and saves the machine code. -/
def assembleFile (t : Terminal) (name : Text) (destination : Option Text) : Interaction Unit := do
  fileMessage t .green "Assembling" name
  let source ← readText name
  let a := assemble source
  say (t.putListing .result a source)
  unless a.labels.isEmpty do
    message t .cyan "Symbols" "defined labels"
    say (t.putLabels .result a.labels)
  match destination with
  | none => pure ()
  | some path =>
    writeText path (a.machineCode ++ "\n")
    fileMessage t .green "Saved" path
  finish t a

/-- Reports the faults of a file, and gives up if there are any. -/
def checkFile (t : Terminal) (name : Text) : Interaction Unit := do
  fileMessage t .green "Checking" name
  let source ← readText name
  let a := assemble source
  reportAll name source a.faults
  if a.hasFaults then fail ("found " ++ Text.ofNat a.faults.length ++ " errors")
  else message t .green "Success" "no errors found!"

/-- Shows the bytes of a file. -/
def dumpFile (t : Terminal) (name : Text) : Interaction Unit := do
  fileMessage t .green "Assembling" name
  let source ← readText name
  let a := assemble source
  say (t.putImage .result a.origin a.image)
  finish t a

/-! ## Running -/

/-- What the end of a file's name says of its content. -/
inductive FileKind where
  | source
  | machineCode
  | unknown
  | unnamed
  deriving DecidableEq, Repr

/-- The part of a file's name behind its last dot, if there is something in front of the dot. -/
def extension? (path : Text) : Option Text :=
  let name := (path.splitOnP (· == '/')).getLastD []
  match name.reverse.dropWhile (· != '.') with
  | _ :: _ :: _ => some (name.reverse.takeWhile (· != '.')).reverse
  | _ => none

/-- The kind of a file. -/
def FileKind.ofPath (path : Text) : FileKind :=
  match extension? path with
  | none => unnamed
  | some e => if e = "asm" then source else if e = "hex" then machineCode else unknown

/-- Says which lines have faults. -/
def faultMessages (t : Terminal) : List LocatedFault → Interaction Unit
  | [] => done ()
  | f :: rest => do
    message t .red "Error" ("line " ++ Text.ofNat (f.line + 1) ++ ": " ++ f.fault.message)
    faultMessages t rest

/-- The machine code of a file: assembled from its source, or its content as it is. -/
def machineCodeOf (t : Terminal) (name content : Text) : Interaction Text := do
  match FileKind.ofPath name with
  | .source =>
    fileMessage t .green "Assembling" name
    let a := assemble content
    faultMessages t a.faults
    pure a.machineCode
  | .machineCode => pure content
  | .unknown => fail "File has unknown extension. Exiting..."
  | .unnamed => fail "File has no extension. Exiting..."

/-- What a finished run shows: its traces, the registers and the memory. -/
def runReport (t : Terminal) (log : List Trace) (s : Session) : Text :=
  log.flatMap (t.putTrace .result) ++
    t.putLine .passing "Registers" ++ t.putRegisters .result s.cpu ++
    t.putLine .passing "Memory" ++ t.putMemory .result s.cpu.memory

/-- Runs a file under a step ceiling and shows every step. -/
def runFile (search : Search) (t : Terminal) (name : Text) (limit : Nat) : Interaction Unit := do
  let content ← readText name
  let code ← machineCodeOf t name content
  message t .green "Running" "loaded program"
  let (log, final) := (((Session.idle search).withLimit limit).load code).run
  say (runReport t log final)
  if final.status = .halted then fileMessage t .red "Halted" name
  else fileMessage t .green "Completed" name

/-! ## Watching -/

/-- The escape sequences that clear the screen. -/
def clearScreen : Text := "\x1b[2J\x1b[2;1H"

/-- Begins to watch a file. -/
def watchFile (t : Terminal) (name : Text) : Interaction Unit :=
  look name fun present =>
    if present then do
      say clearScreen
      fileMessage t .green "Watching" name
      message t .cyan "Help" "press CTRL+C to exit"
    else fail "File does not exist. Exiting..."

/-- Checks a watched file after a change. -/
def recheckFile (t : Terminal) (name : Text) : Interaction Unit := do
  say clearScreen
  fileMessage t .green "Watching" name
  message t .green "Re-checking" "file change detected"
  message t .cyan "Help" "press CTRL+C to exit"
  let source ← readText name
  let a := assemble source
  reportAll name source a.faults
  unless a.hasFaults do message t .green "Success" "no errors found!"

/-! ## Requests -/

section

variable (search : Search) (settings : Settings) (t : Terminal)

/-- What a command does. A run may ask for a minimal terminal. -/
def Command.interaction : Command → Interaction Unit
  | assemble name destination => assembleFile t name destination
  | check name => checkFile t name
  | run name maxSteps minimal =>
    let limit := (maxSteps.or settings.stepLimit).getD defaultStepLimit
    runFile search { t with minimal } name limit
  | dump name => dumpFile t name
  | watch name => watchFile t name

/-- What is done on request. -/
def Request.interaction : Request → Interaction Unit
  | greeting => say (CommandLine.greeting ++ "\n")
  | version => say (versionLine ++ "\n")
  | help => say (usage ++ "\n")
  | command c => c.interaction search settings t

end

end Mc6800.CommandLine
