import Mc6800.CommandLine.Command
import Mc6800.Paint
import Mc6800.Text.Utf8

/-!
# The program

Carries out what the command line asks for: answers the requests of interactions for files, and
prints. The exit code is 0 if all went well, 1 if a command gave up and 2 if the arguments ask for
nothing that there is.
-/

set_option autoImplicit false

namespace Mc6800

/-- The fault that a code of the operating system stands for, with or without a minus sign. -/
def FileFault.ofCode (code : UInt32) (details : String) : FileFault :=
  let number := if code < 0x80000000 then code else -code
  if number = 2 then .notFound
  else if number = 6 then .noDevice
  else if number = 13 then .notPermitted
  else if number = 20 then .notADirectory
  else if number = 21 then .isADirectory
  else if number = 28 then .noSpace
  else if number = 36 then .nameTooLong
  else .other (details.toList ++ " (os error " ++ Text.ofNat number.toNat ++ ")")

/-- The fault that an error of the file system stands for. -/
def FileFault.ofError : IO.Error → FileFault
  | .noFileOrDirectory _ code details | .inappropriateType _ code details
  | .invalidArgument _ code details | .permissionDenied _ code details
  | .resourceExhausted _ code details | .noSuchThing _ code details
  | .otherError code details => .ofCode code details
  | e => .other (toString e).toList

/-- The answer of the file system, or the fault that it met. -/
def fileAnswer {α : Type} (action : IO α) : IO (Except FileFault α) := do
  match ← action.toBaseIO with
  | .ok a => return .ok a
  | .error e => return .error (.ofError e)

/-- Reads a text from a file. -/
def readFileText (path : Text) : IO (Except FileFault Text) := do
  match ← fileAnswer (IO.FS.readBinFile (String.ofList path)) with
  | .error fault => return .error fault
  | .ok bytes =>
    match Text.ofUtf8? bytes with
    | some text => return .ok text
    | none => return .error .notText

/-- Writes a text to a file. A device may refuse it only when it is flushed. -/
def writeFileText (path content : Text) : IO (Except FileFault Unit) :=
  fileAnswer do
    let file ← IO.FS.Handle.mk (String.ofList path) .write
    file.write (Text.toUtf8 content)
    file.flush

/-- Carries an interaction out. -/
def Interaction.perform {α : Type} : Interaction α → IO (Except Text α)
  | done answer => return .ok answer
  | fail message => return .error message
  | print text next => do
    IO.print (String.ofList text)
    (← IO.getStdout).flush
    next.perform
  | report name diagnostic next => do
    IO.eprint (String.ofList (diagnostic.render name))
    next.perform
  | read path next => do
    let answer ← readFileText path
    (next answer).perform
  | write path content next => do
    let answer ← writeFileText path content
    (next answer).perform
  | look path next => do
    let answer ← fileAnswer (IO.FS.readBinFile (String.ofList path))
    let present :=
      match answer with
      | .error .notFound | .error .notADirectory => false
      | .ok _ | .error _ => true
    (next present).perform

/-- Waits for changes of a file and checks it after each. -/
partial def watchForever (t : Terminal) (name : Text) (last : Option Text) : IO UInt32 := do
  IO.sleep 500
  let now := (← readFileText name).toOption
  if now = last then watchForever t name last
  else
    match ← (CommandLine.recheckFile t name).perform with
    | .ok _ => watchForever t name now
    | .error message => do
      IO.eprintln (String.ofList (message ++ ". Exiting..."))
      return 1

/-- The value of a variable of the environment, if it is set. -/
def environment (name : Text) : IO (Option Text) := do
  return (← IO.getEnv (String.ofList name)).map String.toList

end Mc6800

open Mc6800 in
/-- Runs the program with its arguments. -/
def main (arguments : List String) : IO UInt32 := do
  match CommandLine.Request.ofArguments (arguments.map String.toList) with
  | .error fault =>
    IO.eprintln (String.ofList ("error: " ++ fault.message ++ "\n\n" ++ CommandLine.usage))
    return 2
  | .ok request =>
    let colour := Settings.showsColours (← environment "CLICOLOR_FORCE") (← environment "NO_COLOR")
      (← environment "CLICOLOR") (← (← IO.getStdout).isTty)
    let terminal : Terminal := ⟨false, colour, Text.paint⟩
    let settings := Settings.ofVariable (← environment Settings.stepLimitVariable)
    match ← (request.interaction .byHalves settings terminal).perform with
    | .error message =>
      IO.eprintln (String.ofList ("Error: " ++ message))
      return 1
    | .ok _ =>
      match request with
      | .command (.watch name) => watchForever terminal name (← readFileText name).toOption
      | _ => return 0
