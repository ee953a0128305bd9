import Assembly.Build.Host
import Assembly.Log

/-!
# Workspaces

A host as data: a tree of files, the tools that are installed with what they will do to the
files and print, and a record of everything that happened.
-/

namespace Assembly

inductive Node
  | directory
  | file (content : Text)
deriving DecidableEq, Repr

def Node.kind : Node → EntryKind
  | directory => .directory
  | file _ => .file

/-- Files and directories by the names that lead to them from the root.  The root itself is
always there. -/
abbrev FileTree := List (List Text × Node)

namespace FileTree

def get? (t : FileTree) (place : List Text) : Option Node :=
  if place.isEmpty then some .directory else t.lookup place

/-- Puts a node at a place, instead of what was there. -/
def insert (t : FileTree) (place : List Text) (n : Node) : FileTree :=
  (place, n) :: t.filter (·.1 != place)

/-- The place that path elements lead to from a directory.  Everything on the way must be a
directory; at the place itself there need not be anything. -/
def walk (t : FileTree) : List Text → List Text → Except PathFault (List Text)
  | place, [] => .ok place
  | place, e :: rest =>
    match t.get? place with
    | none => .error .notFound
    | some (.file _) => .error .notDirectory
    | some .directory =>
      if e.isEmpty ∨ e = Text.ofString "." then walk t place rest
      else if e = Text.ofString ".." then walk t place.dropLast rest
      else if 255 < e.length then .error .nameTooLong
      else walk t (place ++ [e]) rest

/-- The place of a path, which starts at the root or at the working directory. -/
def place (t : FileTree) (cwd : List Text) (p : Text) : Except PathFault (List Text) :=
  if p.contains 0 then .error .invalid
  else if p.isEmpty then .error .notFound
  else if 4096 ≤ p.length then .error .nameTooLong
  else t.walk (if p.head? = some 47 then [] else cwd) (Text.split 47 p)

/-- What is at a path. -/
def find (t : FileTree) (cwd : List Text) (p : Text) : Except PathFault Node := do
  let place ← t.place cwd p
  match t.get? place with
  | some n => return n
  | none => throw .notFound

theorem get?_insert (t : FileTree) {place : List Text} (n : Node) (h : place ≠ []) :
    (t.insert place n).get? place = some n := by
  simp [insert, get?, h]

end FileTree

/-- An installed tool: what it prints and how it ends. -/
structure Tool where
  exit : Nat
  stdout : Text
  stderr : Text
deriving DecidableEq, Repr

structure Workspace where
  tree : FileTree
  cwd : List Text
  tools : List (Text × Tool)
  /-- What a command makes of the files. -/
  effect : List Text → FileTree → FileTree
  commands : List (List Text)
  stdout : Text
  stderr : Text
  log : List Log.Entry

namespace Workspace

/-- A workspace in which nothing has happened, and no command will change a file. -/
def new (tree : FileTree) (cwd : List Text) (tools : List (Text × Tool)) : Workspace :=
  ⟨tree, cwd, tools, fun _ t => t, [], [], [], []⟩

def find (w : Workspace) (p : Text) : Except PathFault Node := w.tree.find w.cwd p

/-- Adds an entry to the log. -/
def record (e : Log.Entry) : StateM Workspace Unit := modify fun w => { w with log := w.log ++ [e] }

def contentAt (w : Workspace) (p : Text) : Except PathFault Text := do
  match ← w.find p with
  | .file t => return t
  | .directory => throw .isDirectory

/-- The workspace with a file at a path.  An earlier file there is replaced. -/
def putFile (w : Workspace) (p t : Text) : Except PathFault Workspace := do
  let place ← w.tree.place w.cwd p
  match w.tree.get? place with
  | some .directory => throw .isDirectory
  | _ => return { w with tree := w.tree.insert place (.file t) }

/-- The workspace with a new directory at a path. -/
def putDirectory (w : Workspace) (p : Text) : Except PathFault Workspace := do
  let place ← w.tree.place w.cwd p
  match w.tree.get? place with
  | some _ => throw (.other "file exists")
  | none => return { w with tree := w.tree.insert place .directory }

/-- Changes the workspace, unless the change is refused. -/
def change (f : Workspace → Except PathFault Workspace) :
    StateM Workspace (Except PathFault Unit) := do
  match f (← get) with
  | .ok w => do
    set w
    return .ok ()
  | .error e => return .error e

/-- Runs a tool: it does what it does to the files, its output is printed and the command
recorded. -/
def runTool (name : Text) (args : List Text) : StateM Workspace (Option ToolRun) := do
  let w ← get
  match w.tools.lookup name with
  | none => return none
  | some tool =>
    set { w with tree := w.effect (name :: args) w.tree,
                 commands := w.commands ++ [name :: args], stdout := w.stdout ++ tool.stdout }
    return some ⟨tool.exit, tool.stderr⟩

instance : Host (StateM Workspace) where
  stat p := do return ((← get).find p).map (·.kind)
  readFile p := do return (← get).contentAt p
  makeDir p := change (·.putDirectory p)
  writeFile p t := change (·.putFile p t)
  hasTool name := do return ((← get).tools.lookup name).isSome
  runTool := runTool
  print t := modify fun w => { w with stdout := w.stdout ++ t }
  printError t := modify fun w => { w with stderr := w.stderr ++ t }

end Workspace

end Assembly
