import Mc6800.Assembly.Diagnostic

/-!
# Interactions

What a command does to the world, step by step, without doing it: it prints, reports faults, reads
and writes files, and ends well or with a message. Whoever carries an interaction out answers its
requests for files.
-/

set_option autoImplicit false

namespace Mc6800

/-- Why a file cannot be read or written. -/
inductive FileFault where
  | notFound
  | noDevice
  | notPermitted
  | notADirectory
  | isADirectory
  | noSpace
  | nameTooLong
  /-- The bytes of the file are no text. -/
  | notText
  /-- Anything else, in words. -/
  | other (message : Text)
  deriving DecidableEq, Repr

/-- Why, in words. -/
def FileFault.message : FileFault → Text
  | notFound => "No such file or directory (os error 2)"
  | noDevice => "No such device or address (os error 6)"
  | notPermitted => "Permission denied (os error 13)"
  | notADirectory => "Not a directory (os error 20)"
  | isADirectory => "Is a directory (os error 21)"
  | noSpace => "No space left on device (os error 28)"
  | nameTooLong => "File name too long (os error 36)"
  | notText => "stream did not contain valid UTF-8"
  | other message => message

/-- The steps of a command that ends with an answer. -/
inductive Interaction (α : Type) where
  | done (answer : α)
  /-- The command gives up, for this reason. -/
  | fail (message : Text)
  | print (text : Text) (next : Interaction α)
  /-- A fault is reported beside the output. -/
  | report (name : Text) (diagnostic : Diagnostic) (next : Interaction α)
  | read (path : Text) (next : Except FileFault Text → Interaction α)
  | write (path content : Text) (next : Except FileFault Unit → Interaction α)
  /-- Asks whether there is something at a path. -/
  | look (path : Text) (next : Bool → Interaction α)

namespace Interaction

/-- One interaction behind another. -/
def bind {α β : Type} (i : Interaction α) (f : α → Interaction β) : Interaction β :=
  match i with
  | done answer => f answer
  | fail message => fail message
  | print text next => print text (next.bind f)
  | report name diagnostic next => report name diagnostic (next.bind f)
  | read path next => read path fun answer => (next answer).bind f
  | write path content next => write path content fun answer => (next answer).bind f
  | look path next => look path fun answer => (next answer).bind f

instance : Monad Interaction where
  pure := done
  bind := bind

/-- Prints a text. -/
def say (text : Text) : Interaction Unit := print text (done ())

/-- Reads a text, and gives up if that fails. -/
def readText (path : Text) : Interaction Text :=
  read path fun
    | .ok text => done text
    | .error fault => fail fault.message

/-- Writes a text, and gives up if that fails. -/
def writeText (path content : Text) : Interaction Unit :=
  write path content fun
    | .ok _ => done ()
    | .error fault => fail fault.message

/-- Reports the faults of an assembly in order. -/
def reportAll (name source : Text) : List LocatedFault → Interaction Unit
  | [] => done ()
  | fault :: rest => report name (Diagnostic.ofFault source fault) (reportAll name source rest)

end Interaction

end Mc6800
