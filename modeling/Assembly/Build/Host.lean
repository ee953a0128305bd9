import Assembly.Text.Quoted

/-!
# The host

What a build needs from the system it runs on: files, the tools, and two output streams.
Operations on files are refused for the reasons listed here.
-/

namespace Assembly

/-- Why an operation on a path is refused. -/
inductive PathFault
  | notFound
  | notDirectory
  | isDirectory
  | nameTooLong
  | invalid
  | other (reason : Text)
deriving DecidableEq, Repr

def PathFault.text : PathFault → Text
  | notFound => "no such file or directory"
  | notDirectory => "not a directory"
  | isDirectory => "is a directory"
  | nameTooLong => "file name too long"
  | invalid => "invalid argument"
  | other reason => reason

/-- A refused operation, by the word for it and its path. -/
structure PathError where
  action : Text
  path : Text
  fault : PathFault
deriving DecidableEq, Repr

def PathError.message (e : PathError) : Text := e.action ++ " " ++ e.path ++ ": " ++ e.fault.text

/-- The kind of what is at a path. -/
inductive EntryKind
  | file | directory
deriving DecidableEq, Repr

/-- How a tool ended, and what it wrote to its error stream. -/
structure ToolRun where
  exit : Nat
  stderr : Text
deriving DecidableEq, Repr

/-- A system that builds run on.  What a tool writes to its output goes to the output of
the build; `runTool` gives nothing if there is no such tool. -/
class Host (m : Type → Type) where
  stat : Text → m (Except PathFault EntryKind)
  readFile : Text → m (Except PathFault Text)
  makeDir : Text → m (Except PathFault Unit)
  writeFile : Text → Text → m (Except PathFault Unit)
  hasTool : Text → m Bool
  runTool : Text → List Text → m (Option ToolRun)
  print : Text → m Unit
  printError : Text → m Unit

namespace Host

variable {m : Type → Type} [Monad m] [Host m]

/-- Makes the first directories of a list that are missing; stops at what is in the way. -/
def makeDirsFrom : List Text → m (Except PathError Unit)
  | [] => return .ok ()
  | p :: rest => do
    match ← stat p with
    | .ok .directory => makeDirsFrom rest
    | .ok .file => return .error ⟨"mkdir", p, .notDirectory⟩
    | .error _ =>
      match ← makeDir p with
      | .ok _ => makeDirsFrom rest
      | .error f => return .error ⟨"mkdir", p, f⟩

/-- Reads a file.  A directory can be opened, but not read. -/
def read (p : Text) : m (Except PathError Text) := do
  match ← readFile p with
  | .ok t => return .ok t
  | .error .isDirectory => return .error ⟨"read", p, .isDirectory⟩
  | .error f => return .error ⟨"open", p, f⟩

def write (p t : Text) : m (Except PathError Unit) := do
  match ← writeFile p t with
  | .ok _ => return .ok ()
  | .error f => return .error ⟨"open", p, f⟩

/-- Prints a line. -/
def printLine (t : Text) : m Unit := print (t ++ "\n")

end Host

end Assembly
