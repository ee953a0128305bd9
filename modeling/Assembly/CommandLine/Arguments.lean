import Assembly.Build.Host

/-!
# Command-line arguments

Options may stand anywhere.  The first word that is no option is the command, the second
the path of a script; an empty word counts as none.
-/

namespace Assembly.CommandLine

/-- The arguments as they were given; an empty text stands for one that was not. -/
structure Flags where
  command : Text
  file : Text
  bits : Text
  output : Text
  buildDir : Text
  strict : Bool
  asmOnly : Bool
  skipLink : Bool
  listing : Bool
  noColor : Bool
  debug : Bool
deriving DecidableEq, Repr

/-- No arguments. -/
def Flags.empty : Flags := ⟨[], [], [], [], [], false, false, false, false, false, false⟩

/-- What is wrong with the arguments. -/
inductive ArgError
  | outputMissing
  | unknownFlag (arg : Text)
  | unexpected (arg : Text)
  | fileMissing
  | noSuchFile (path : Text)
  | fileForDemo
  | commandMissing
  | unknownCommand (name : Text)
deriving DecidableEq, Repr

def ArgError.message : ArgError → Text
  | outputMissing => "-o needs a name"
  | unknownFlag arg => "unknown flag " ++ arg
  | unexpected arg => "unexpected argument " ++ arg
  | fileMissing => "build needs a script path"
  | noSuchFile path => "file " ++ path ++ " does not exist"
  | fileForDemo => "demo takes no path"
  | commandMissing => "no command given"
  | unknownCommand name => "unknown command " ++ name

namespace Flags

/-- The options that take no value. -/
def switch? (f : Flags) (arg : Text) : Option Flags :=
  if arg == Text.ofString "--strict" then some { f with strict := true }
  else if arg == Text.ofString "--asm-only" then some { f with asmOnly := true }
  else if arg == Text.ofString "--skip-link" then some { f with skipLink := true }
  else if arg == Text.ofString "--listing" then some { f with listing := true }
  else if arg == Text.ofString "--no-color" then some { f with noColor := true }
  else if arg == Text.ofString "--debug" then some { f with debug := true }
  else none

/-- The options whose value follows an equals sign. -/
def setting? (f : Flags) (arg : Text) : Option Flags :=
  match Text.after? "--bits=" arg, Text.after? "--build-dir=" arg, Text.after? "-o=" arg with
  | some v, _, _ => some { f with bits := v }
  | _, some v, _ => some { f with buildDir := v }
  | _, _, some v => some { f with output := v }
  | _, _, _ => none

/-- A word that is no option. -/
def word (f : Flags) (arg : Text) : Except ArgError Flags :=
  if f.command.isEmpty then .ok { f with command := arg }
  else if f.file.isEmpty then .ok { f with file := arg }
  else .error (.unexpected arg)

/-- An argument that stands for itself. -/
def single (f : Flags) (arg : Text) : Except ArgError Flags :=
  match (f.switch? arg).or (f.setting? arg) with
  | some f => .ok f
  | none => if arg.head? = some 45 then .error (.unknownFlag arg) else f.word arg

/-- Reads arguments from left to right.  The name of the output is an argument of its own. -/
def scan (f : Flags) : List Text → Except ArgError Flags
  | [] => .ok f
  | [arg] => if arg == Text.ofString "-o" then .error .outputMissing else f.single arg
  | arg :: next :: rest =>
    if arg == Text.ofString "-o" then scan { f with output := next } rest
    else
      match f.single arg with
      | .ok f => scan f (next :: rest)
      | .error e => .error e

end Flags

variable {m : Type → Type} [Monad m] [Host m]

/-- Whether the command is known and has the path it needs.  Only a path that leads nowhere
is refused here; other faults show when the script is read. -/
def checkCommand (f : Flags) : m (Except ArgError Unit) := do
  if f.command == Text.ofString "build" then
    if f.file.isEmpty then return .error .fileMissing
    else
      match ← Host.stat f.file with
      | .error .notFound => return .error (.noSuchFile f.file)
      | _ => return .ok ()
  else if f.command == Text.ofString "demo" then
    return if f.file.isEmpty then .ok () else .error .fileForDemo
  else if f.command.isEmpty then return .error .commandMissing
  else return .error (.unknownCommand f.command)

/-- Reads and checks the arguments. -/
def parseArguments (args : List Text) : m (Except ArgError Flags) := do
  match Flags.empty.scan args with
  | .error e => return .error e
  | .ok f =>
    match ← checkCommand f with
    | .error e => return .error e
    | .ok _ => return .ok f

end Assembly.CommandLine
