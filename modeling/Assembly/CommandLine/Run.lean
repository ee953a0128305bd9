import Assembly.Build.Artifacts
import Assembly.CommandLine.Arguments
import Assembly.Listing
import Assembly.Script.Demo
import Assembly.Script.Emission
import Assembly.Script.Printer
import Assembly.Script.Read

/-!
# The command line

One run of the program: read the arguments, read the script, build it, and say what was
made.  What is for the user goes to the output, the log to the error stream.
-/

namespace Assembly.CommandLine

def version : Text := "0.2.0"

def usageLines : List String :=
  [ "Usage:",
    "  asmlite build [flags] <file.asml>",
    "  asmlite demo [flags]",
    "",
    "Flags:",
    "  --bits=64|32|16   word width (overrides the script's bits line)",
    "  --strict          treat register exhaustion, unknown types and duplicate symbols as errors",
    "  --asm-only        stop after writing the .asm file",
    "  --skip-link       stop after assembling",
    "  --listing         print the generated assembly",
    "  --build-dir=DIR   artifact directory (default build)",
    "  --no-color        disable coloured output",
    "  --debug           verbose logging and AST/engine dumps",
    "  -o NAME           output base name" ]

def usage : Text := Text.unlines (usageLines.map Text.ofString)

/-- Why a script could not be loaded. -/
inductive LoadError
  | file (path : Text) (e : PathError)
  | script (e : Script.ScriptError)
deriving DecidableEq, Repr

def LoadError.message : LoadError → Text
  | file path e => "cannot read " ++ path ++ ": " ++ e.message
  | script e => e.message

/-- What a run does before it builds: the machine it builds for, or why there is none. -/
def target (f : Flags) (s : Script) : Except Text Target :=
  if f.bits.isEmpty then .ok (s.width.getD .bits64)
  else
    match Target.ofName? f.bits with
    | some t => .ok t
    | none => .error (Target.unsupported f.bits)

/-- The name of the artifacts if the user gives none. -/
def defaultName (f : Flags) : Text :=
  if f.command == Text.ofString "demo" then "demo" else Path.stem f.file

def options (f : Flags) (t : Target) : BuildOptions where
  target := t
  buildDir := f.buildDir
  outputName := if f.output.isEmpty then defaultName f else f.output
  strict := f.strict
  asmOnly := f.asmOnly
  skipLink := f.skipLink

variable {m : Type → Type} [Monad m] [Host m]

/-- Reads the script at a path. -/
def loadFile (path : Text) : m (Except LoadError Script) := do
  match ← Host.read path with
  | .error e => return .error (.file path e)
  | .ok source =>
    match Script.parse source with
    | .error e => return .error (.script { e with file := path })
    | .ok s => return .ok { s with file := path }

/-- The script that the command asks for. -/
def load (f : Flags) : m (Except LoadError Script) :=
  if f.command == Text.ofString "demo" then
    return (Script.parse Script.demo).mapError .script
  else loadFile f.file

/-- Writes log entries of the level that the user asks for. -/
def logger (debug : Bool) : Logger m := fun e =>
  if e.level.reaches (if debug then .debug else .warn) then
    Host.printError (e.text (some "asmlite") ++ "\n")
  else pure ()

/-- Prints a line in a colour. -/
def printColored (colors : Bool) (c : Listing.Color) (t : Text) : m Unit :=
  Host.printLine ((Listing.Span.colored c t).render colors)

/-- Prints a heading and what went wrong, indented. -/
def printFailure (colors : Bool) (heading message : Text) : m Unit := do
  printColored colors .red heading
  Host.printLine ("  " ++ message)

/-- Prints a path with the name of its role, if there is one. -/
def printPath (role : Text) : Option Text → m Unit
  | some p => Host.printLine ("  " ++ role ++ p)
  | none => pure ()

/-- Prints what a build has made. -/
def printArtifacts (f : Flags) (colors : Bool) (a : Artifacts) : m Unit := do
  if f.debug then Host.print a.dump
  if f.listing then
    Host.printLine (Listing.numbered colors (Listing.colorize colors a.asm))
  printColored colors .green "Build artifacts:"
  printPath "Assembly: " (some a.asmFile)
  printPath "Object:   " a.objFile
  printPath "Binary:   " a.exeFile
  if !a.missing.isEmpty then
    printColored colors .yellow ("Toolchain incomplete, install: " ++ Text.join ", " a.missing)

/-- Builds a script and gives the exit code. -/
def build (f : Flags) (colors : Bool) (s : Script) : m Nat := do
  match target f s with
  | .error message =>
    Host.printLine ("Error: " ++ message)
    return 1
  | .ok t =>
    match ← Build.run (logger f.debug) (options f t) (Script.emit s) with
    | .error e =>
      printFailure colors "Codegen error:" (e.message (·.message))
      return 1
    | .ok a =>
      printArtifacts f colors a
      return 0

/-- Runs with arguments that are in order. -/
def runFlags (f : Flags) (colors : Bool) : m Nat := do
  printColored colors .bold ("asmlite V" ++ version)
  logger f.debug ⟨.debug, "using debug mode", []⟩
  match ← load f with
  | .error e =>
    printFailure colors "Script error:" e.message
    return 1
  | .ok s =>
    let bits := (s.width.map (·.bits)).getD 0
    logger f.debug ⟨.debug, "parsed script",
      [("items", Text.ofNat s.items.length), ("bits", Text.ofNat bits)]⟩
    if f.debug then
      Host.printLine "--- AST ---"
      Host.print s.text
      Host.printLine "--- End AST ---"
    build f colors s

/-- Runs the program and gives the exit code.  `plain` says that the environment asks for
output without colours. -/
def run (plain : Bool) (args : List Text) : m Nat := do
  match ← parseArguments args with
  | .error e =>
    Host.printLine ("Error: " ++ e.message)
    Host.printLine usage
    return 1
  | .ok f => runFlags f (!f.noColor && !plain)

end Assembly.CommandLine
