import Assembly.Build.Host
import Assembly.Build.Path
import Assembly.Log
import Assembly.Machine.Target

/-!
# The toolchain

Assembling and linking with two external tools: the files they read and write, the commands
for them, and how a run can fail.
-/

namespace Assembly

/-- What is done with the entries of a log. -/
abbrev Logger (m : Type → Type) := Log.Entry → m Unit

/-- The stages that an external tool performs. -/
inductive Stage
  | assemble | link
deriving DecidableEq, Repr

def Stage.text : Stage → Text
  | assemble => "assemble"
  | link => "link"

/-- Why a stage fails. -/
inductive ToolError
  | missing (stage : Stage) (tool : Text)
  | failed (stage : Stage) (run : ToolRun)
  /-- The object file is the final artifact already. -/
  | nothingToLink (target : Target)
deriving DecidableEq, Repr

def ToolError.message : ToolError → Text
  | missing stage tool =>
    stage.text ++ " failed: exec: " ++ Text.quote tool ++
      ": executable file not found in $PATH\n"
  | failed stage run =>
    stage.text ++ " failed: exit status " ++ Text.ofNat run.exit ++ "\n" ++ run.stderr
  | nothingToLink target => "target " ++ target.name ++ " does not link"

/-- The files of a build. -/
structure Toolchain where
  target : Target
  asmFile : Text
  objFile : Text
  exeFile : Text
deriving DecidableEq, Repr

namespace Toolchain

/-- The files in a directory with a common base name. -/
def new (target : Target) (dir name : Text) : Toolchain where
  target := target
  asmFile := Path.join dir (name ++ target.asmExtension)
  objFile := Path.join dir (name ++ target.objectExtension)
  exeFile := Path.join dir (name ++ target.programExtension)

def assembler : Text := "nasm"

def linker : Text := "ld"

def assembleArgs (tc : Toolchain) : List Text :=
  ["-f", tc.target.objectFormat.text, "-o", tc.objFile, tc.asmFile]

/-- The linker's arguments.  Its default output is 64-bit. -/
def linkArgs (tc : Toolchain) : List Text :=
  let files : List Text := ["-o", tc.exeFile, tc.objFile]
  if tc.target = .bits32 then "-m" :: "elf_i386" :: files else files

def assembleCommand (tc : Toolchain) : List Text := assembler :: tc.assembleArgs

/-- The command for the linker; empty if there is nothing to link. -/
def linkCommand (tc : Toolchain) : List Text :=
  if tc.target.needsLink then linker :: tc.linkArgs else []

variable {m : Type → Type} [Monad m] [Host m]

/-- Writes the program text. -/
def writeAssembly (tc : Toolchain) (asm : Text) : m (Except PathError Unit) :=
  Host.write tc.asmFile asm

/-- Runs a tool for a stage. -/
def runStage (logger : Logger m) (stage : Stage) (tool : Text) (args : List Text) :
    m (Except ToolError Unit) := do
  logger ⟨.debug, stage.text, [("cmd", Text.join " " (tool :: args))]⟩
  match ← Host.runTool tool args with
  | none => return .error (.missing stage tool)
  | some run => return if run.exit = 0 then .ok () else .error (.failed stage run)

def assemble (logger : Logger m) (tc : Toolchain) : m (Except ToolError Unit) :=
  runStage logger .assemble assembler tc.assembleArgs

def link (logger : Logger m) (tc : Toolchain) : m (Except ToolError Unit) :=
  if tc.target.needsLink then runStage logger .link linker tc.linkArgs
  else return .error (.nothingToLink tc.target)

/-- The tools that a target needs and the host does not have, as they are told to people. -/
def missing (target : Target) : m (List Text) := do
  let noAssembler := !(← Host.hasTool assembler)
  let noLinker := target.needsLink && !(← Host.hasTool linker)
  return (if noAssembler then [assembler] else []) ++
    (if noLinker then [Text.ofString "ld (linker)"] else [])

end Toolchain

end Assembly
