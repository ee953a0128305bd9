import Assembly.Build.Toolchain
import Assembly.Engine.Output

/-!
# Building programs

From a program to files: a directory for the word width, the assembly text, the object
file, the executable.  A program is anything that drives an engine.  A build stops early
when it is told to or when tools are missing; that is no failure.
-/

namespace Assembly

/-- Something that drives an engine, and can fail. -/
abbrev Program (ε : Type) := Engine → Except ε Unit × Engine

/-- How to build.  An empty directory or name stands for the usual one. -/
structure BuildOptions where
  target : Target
  buildDir : Text
  outputName : Text
  strict : Bool
  asmOnly : Bool
  skipLink : Bool
deriving DecidableEq, Repr

namespace BuildOptions

def default : BuildOptions := ⟨.bits64, [], [], false, false, false⟩

/-- The directory for the artifacts of the target. -/
def directory (o : BuildOptions) : Text :=
  Path.join (if o.buildDir.isEmpty then "build" else o.buildDir) o.target.name

/-- A character of an output name: points, blanks and slashes are no part of one. -/
def nameRune (c : Rune) : Text :=
  if c.code = 46 ∨ c.code = 32 ∨ c.code = 47 ∨ c.code = 92 then "_" else Rune.encode c.code

/-- The base name of the artifacts. -/
def baseName (o : BuildOptions) : Text :=
  (Text.runes (if o.outputName.isEmpty then "output" else o.outputName)).flatMap nameRune

def toolchain (o : BuildOptions) : Toolchain := .new o.target o.directory o.baseName

end BuildOptions

/-- What a build has made: the program text and its file, the object file and the
executable as far as the build went, the engine's summary, and the tools it missed. -/
structure Artifacts where
  asm : Text
  asmFile : Text
  objFile : Option Text
  exeFile : Option Text
  dump : Text
  missing : List Text
deriving DecidableEq, Repr

/-- Why a build fails.  When a tool fails, what was made before it stays. -/
inductive BuildError (ε : Type)
  | directory (path : Text) (e : PathError)
  | emission (e : ε)
  | unended (function : Text)
  | asmFile (e : PathError)
  | assembly (done : Artifacts) (e : ToolError)
  | linking (done : Artifacts) (e : ToolError)
deriving DecidableEq, Repr

namespace BuildError

variable {ε : Type}

def message (words : ε → Text) : BuildError ε → Text
  | directory path e => "cannot create build directory " ++ path ++ ": " ++ e.message
  | emission e => "emission failed: " ++ words e
  | unended f => "emission failed: function " ++ f ++ " was never ended"
  | asmFile e => "cannot write assembly file: " ++ e.message
  | assembly _ e => "assembly failed: " ++ e.message
  | linking _ e => "linking failed: " ++ e.message

/-- What a failed build has made. -/
def artifacts? : BuildError ε → Option Artifacts
  | assembly done _ => some done
  | linking done _ => some done
  | _ => none

end BuildError

namespace Build

variable {m : Type → Type} [Monad m] [Host m] {ε : Type}

/-- Runs the program on a new engine, and logs what the engine logged. -/
def emit (logger : Logger m) (o : BuildOptions) (p : Program ε) :
    m (Except (BuildError ε) Engine) := do
  logger ⟨.debug, "emitting", [("target", o.target.name)]⟩
  let (outcome, e) := p (.new o.target o.strict)
  e.log.forM logger
  match outcome, e.current with
  | .error err, _ => return .error (.emission err)
  | .ok _, some f => return .error (.unended f.name)
  | .ok _, none => return .ok e

/-- Links the object file. -/
def link (logger : Logger m) (tc : Toolchain) (done : Artifacts) :
    m (Except (BuildError ε) Artifacts) := do
  logger ⟨.debug, "linking", []⟩
  match ← tc.link logger with
  | .error e => return .error (.linking done e)
  | .ok _ =>
    logger ⟨.debug, "executable written", [("path", tc.exeFile)]⟩
    return .ok { done with exeFile := some tc.exeFile }

/-- Assembles the program text, and goes on to the linker if there is something to link. -/
def assemble (logger : Logger m) (o : BuildOptions) (tc : Toolchain) (done : Artifacts) :
    m (Except (BuildError ε) Artifacts) := do
  logger ⟨.debug, "assembling", []⟩
  match ← tc.assemble logger with
  | .error e => return .error (.assembly done e)
  | .ok _ =>
    let done := { done with objFile := some tc.objFile }
    if !o.target.needsLink then return .ok { done with exeFile := some tc.objFile }
    else if o.skipLink then return .ok done
    else link logger tc done

/-- Runs the tools on the program text, if they are there. -/
def useTools (logger : Logger m) (o : BuildOptions) (tc : Toolchain) (done : Artifacts) :
    m (Except (BuildError ε) Artifacts) := do
  match ← Toolchain.missing o.target with
  | [] => assemble logger o tc done
  | missing =>
    logger ⟨.warn, "missing toolchain components, stopping after assembly text",
      [("missing", Text.join ", " missing), ("asm", done.asmFile)]⟩
    return .ok { done with missing := missing }

/-- Builds a program. -/
def run (logger : Logger m) (o : BuildOptions) (p : Program ε) :
    m (Except (BuildError ε) Artifacts) := do
  match ← Host.makeDirsFrom (Path.ancestors o.directory) with
  | .error e => return .error (.directory o.directory e)
  | .ok _ =>
    match ← emit logger o p with
    | .error e => return .error e
    | .ok e =>
      let tc := o.toolchain
      let done : Artifacts := ⟨e.program, tc.asmFile, none, none, e.dump, []⟩
      match ← tc.writeAssembly done.asm with
      | .error e => return .error (.asmFile e)
      | .ok _ =>
        logger ⟨.debug, "assembly written", [("path", tc.asmFile)]⟩
        if o.asmOnly then return .ok done else useTools logger o tc done

end Build

end Assembly
