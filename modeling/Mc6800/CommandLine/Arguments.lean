import Mc6800.Text.Number

/-!
# Arguments

What the arguments of the command line ask for. Arguments are read from left to right. In front of
`--` an argument that begins with `-` is an option, unless it is `-` alone, and behind it every
argument is a name. Outside a command, the first argument that names a command begins it, even
behind a path. Behind the word for help there are no options, only words for commands.
-/

set_option autoImplicit false

namespace Mc6800.CommandLine

/-- A command with its arguments. -/
inductive Command where
  /-- Assemble a file, show the listing, and save the machine code if there is a destination. -/
  | assemble (name : Text) (destination : Option Text)
  /-- Look for faults only. -/
  | check (name : Text)
  /-- Run a file and trace every step. -/
  | run (name : Text) (maxSteps : Option Nat) (minimal : Bool)
  /-- Show the bytes of a file. -/
  | dump (name : Text)
  /-- Check a file again whenever it changes. -/
  | watch (name : Text)
  deriving DecidableEq, Repr

/-- What the arguments ask for. -/
inductive Request where
  /-- There is nothing to do but to say what this program is. -/
  | greeting
  | version
  | help
  | command (command : Command)
  deriving DecidableEq, Repr

/-- The arguments ask for nothing that there is. -/
inductive UsageFault where
  | unknownOption (argument : Text)
  | unexpectedArgument (argument : Text)
  | missingArgument (what : Text)
  | badValue (value : Text)
  | repeatedOption (argument : Text)
  | unknownCommand (argument : Text)
  deriving DecidableEq, Repr

/-- What is wrong with the arguments, in words. -/
def UsageFault.message : UsageFault → Text
  | unknownOption a => "unknown option " ++ a
  | unexpectedArgument a => "unexpected argument " ++ a
  | missingArgument what => "missing " ++ what
  | badValue v => "bad value " ++ v
  | repeatedOption a => "repeated option " ++ a
  | unknownCommand a => "unknown command " ++ a

/-! ## The arguments of a command -/

/-- The argument that ends all options. -/
def endOfOptions : Text := "--"

/-- Whether an argument is an option, or several one-letter options in one. -/
def isOption (argument : Text) : Bool :=
  match argument with
  | '-' :: _ :: _ => true
  | _ => false

/-- What the options of a command have set, and the names it was given. -/
structure Gathered where
  names : List Text
  maxSteps : Option Nat
  minimal : Bool
  deriving DecidableEq, Repr

namespace Gathered

/-- Nothing is set yet. -/
def empty : Gathered := ⟨[], none, false⟩

/-- One more name, if there may be so many. Names are not empty. -/
def addName (g : Gathered) (most : Nat) (name : Text) : Except UsageFault Gathered :=
  if most ≤ g.names.length then .error (.unexpectedArgument name)
  else if name.isEmpty then .error (.badValue name)
  else .ok { g with names := g.names ++ [name] }

/-- Several more names. -/
def addNames (g : Gathered) (most : Nat) : List Text → Except UsageFault Gathered
  | [] => .ok g
  | name :: rest =>
    match g.addName most name with
    | .error e => .error e
    | .ok g => g.addNames most rest

/-- The option for fewer words is set. -/
def setMinimal (g : Gathered) : Except UsageFault Gathered :=
  if g.minimal then .error (.repeatedOption "--minimal") else .ok { g with minimal := true }

/-- The step ceiling is set. -/
def setMaxSteps (g : Gathered) (value : Text) : Except UsageFault Gathered :=
  if g.maxSteps.isSome then .error (.repeatedOption "--max-steps")
  else
    match Text.readCount? value with
    | none => .error (.badValue value)
    | some n => .ok { g with maxSteps := some n }

end Gathered

/-- What an argument of options leaves to be read. -/
inductive Pending where
  | nothing
  /-- The step ceiling is the next argument. -/
  | maxSteps
  /-- Help is asked for, and the other arguments do not matter. -/
  | help
  deriving DecidableEq, Repr

/-- Reads one-letter options in one argument, the dash taken away. -/
def readLetters (g : Gathered) : Text → Except UsageFault (Gathered × Pending)
  | [] => .ok (g, .nothing)
  | 'h' :: _ => .ok (g, .help)
  | 'm' :: rest =>
    match g.setMinimal with
    | .error e => .error e
    | .ok g => readLetters g rest
  | 's' :: [] => .ok (g, .maxSteps)
  | 's' :: rest => (g.setMaxSteps (Text.dropMarker '=' rest)).map (·, .nothing)
  | c :: _ => .error (.unknownOption ['-', c])

/-- Reads an argument of options of a run. -/
def readRunOption (g : Gathered) (argument : Text) : Except UsageFault (Gathered × Pending) :=
  if argument = "--help" then .ok (g, .help)
  else if argument = "--minimal" then g.setMinimal.map (·, .nothing)
  else if argument = "--max-steps" then .ok (g, .maxSteps)
  else
    match List.isPrefixOf? ("--max-steps=" : Text) argument with
    | some value => (g.setMaxSteps value).map (·, .nothing)
    | none =>
      match argument with
      | '-' :: '-' :: _ => .error (.unknownOption argument)
      | _ => readLetters g (argument.drop 1)

/-- Reads an argument of options of a command that has none but help. -/
def readPlainOption (g : Gathered) (argument : Text) : Except UsageFault (Gathered × Pending) :=
  if argument = "--help" ∨ List.isPrefixOf ("-h" : Text) argument then .ok (g, .help)
  else .error (.unknownOption argument)

/-- Reads the arguments of a command that takes at most `most` names. The flag says that the first
of them is the step ceiling. None is the answer when help is asked for. -/
def gather (readOption : Gathered → Text → Except UsageFault (Gathered × Pending)) (most : Nat)
    (g : Gathered) (awaiting : Bool) : List Text → Except UsageFault (Option Gathered)
  | [] => if awaiting then .error (.missingArgument "value of --max-steps") else .ok (some g)
  | argument :: rest =>
    if awaiting then
      match g.setMaxSteps argument with
      | .error e => .error e
      | .ok g => gather readOption most g false rest
    else if argument = endOfOptions then (g.addNames most rest).map some
    else if isOption argument then
      match readOption g argument with
      | .error e => .error e
      | .ok (_, .help) => .ok none
      | .ok (g, .maxSteps) => gather readOption most g true rest
      | .ok (g, .nothing) => gather readOption most g false rest
    else
      match g.addName most argument with
      | .error e => .error e
      | .ok g => gather readOption most g false rest

/-! ## Commands -/

/-- The words that begin a command. -/
inductive CommandWord where
  | assemble
  | check
  | run
  | dump
  | watch
  deriving DecidableEq, Repr

namespace CommandWord

/-- A command word as it is written. -/
def name : CommandWord → Text
  | assemble => "asm"
  | check => "check"
  | run => "run"
  | dump => "dump"
  | watch => "watch"

/-- All command words. -/
def all : List CommandWord := [assemble, check, run, dump, watch]

/-- The command word that an argument is, if it is one. -/
def ofArgument? (argument : Text) : Option CommandWord := all.find? fun w => w.name == argument

/-- The most names that a command takes. -/
def mostNames : CommandWord → Nat
  | assemble => 2
  | _ => 1

/-- The request for a command with these names and options. -/
def request (w : CommandWord) (g : Gathered) : Except UsageFault Request :=
  match w, g.names with
  | _, [] => .error (.missingArgument "file name")
  | assemble, name :: rest => .ok (.command (.assemble name rest.head?))
  | check, name :: _ => .ok (.command (.check name))
  | run, name :: _ => .ok (.command (.run name g.maxSteps g.minimal))
  | dump, name :: _ => .ok (.command (.dump name))
  | watch, name :: _ => .ok (.command (.watch name))

/-- The request of a command word with the arguments behind it. -/
def read (w : CommandWord) (arguments : List Text) : Except UsageFault Request :=
  let readOption := if w = run then readRunOption else readPlainOption
  match gather readOption w.mostNames .empty false arguments with
  | .error e => .error e
  | .ok none => .ok .help
  | .ok (some g) => w.request g

end CommandWord

/-! ## Help -/

/-- The word that asks for help. -/
def helpWord : Text := "help"

/-- Reads the arguments behind the word for help: none, or a single word for what help is about.
No other argument has a meaning here. -/
def readHelp : List Text → Except UsageFault Request
  | [] => .ok .help
  | topic :: rest =>
    if topic ≠ helpWord ∧ CommandWord.ofArgument? topic = none then .error (.unknownCommand topic)
    else
      match rest with
      | [] => .ok .help
      | argument :: _ => .error (.unexpectedArgument argument)

/-! ## All arguments -/

/-- The request for what a path alone asks for: a run, or a greeting without a path. -/
def Request.ofPath? (path : Option Text) : Request :=
  match path with
  | none => .greeting
  | some name => .command (.run name none false)

/-- Reads the arguments behind an optional path. -/
def readArguments (path : Option Text) : List Text → Except UsageFault Request
  | [] => .ok (.ofPath? path)
  | argument :: rest =>
    if argument = endOfOptions then
      match Gathered.addNames ⟨path.toList, none, false⟩ 1 rest with
      | .error e => .error e
      | .ok g => .ok (.ofPath? g.names.head?)
    else if isOption argument then
      if argument = "--version" ∨ List.isPrefixOf ("-V" : Text) argument then .ok .version
      else if argument = "--help" ∨ List.isPrefixOf ("-h" : Text) argument then .ok .help
      else .error (.unknownOption argument)
    else if argument = helpWord then readHelp rest
    else
      match CommandWord.ofArgument? argument with
      | some w => w.read rest
      | none =>
        match Gathered.addName ⟨path.toList, none, false⟩ 1 argument with
        | .error e => .error e
        | .ok g => readArguments g.names.head? rest

/-- What the arguments ask for. -/
def Request.ofArguments (arguments : List Text) : Except UsageFault Request :=
  readArguments none arguments

end Mc6800.CommandLine
