import Assembly.CommandLine.Run

/-!
# The program

The command line on a real system.  Tools are never found here, so a build ends with its
assembly text.
-/

namespace Assembly.Main

/-- The reason for a failure of the system. -/
def faultOf : IO.Error → PathFault
  | .noFileOrDirectory _ _ _ => .notFound
  | .inappropriateType _ _ _ => .notDirectory
  | .invalidArgument _ _ _ => .invalid
  | e => .other (Text.ofString (toString e))

/-- Runs an action on a path; a path that is no text is refused. -/
def onPath {α : Type} (p : Text) (act : String → IO α) : IO (Except PathFault α) := do
  match String.fromUTF8? ⟨p.toArray⟩ with
  | none => return .error .invalid
  | some s =>
    try
      return .ok (← act s)
    catch e => return .error (faultOf e)

def entryKind (path : String) : IO EntryKind := do
  let real ← IO.FS.realPath path
  return if ← real.isDir then .directory else .file

def readText (path : String) : IO (Except PathFault Text) := do
  match ← entryKind path with
  | .directory => return .error .isDirectory
  | .file => return .ok (← IO.FS.readBinFile path).data.toList

def writeTo (stream : IO.FS.Stream) (t : Text) : IO Unit := do
  stream.write ⟨t.toArray⟩
  stream.flush

instance : Host IO where
  stat p := onPath p entryKind
  readFile p := do
    match ← onPath p readText with
    | .ok r => return r
    | .error f => return .error f
  makeDir p := onPath p fun path => IO.FS.createDir path
  writeFile p t := onPath p fun path => IO.FS.writeBinFile path ⟨t.toArray⟩
  hasTool _ := return false
  runTool _ _ := return none
  print t := do writeTo (← IO.getStdout) t
  printError t := do writeTo (← IO.getStderr) t

end Assembly.Main

open Assembly in
def main (args : List String) : IO UInt32 := do
  let start ← IO.monoMsNow
  let plain := ((← IO.getEnv "NO_COLOR").getD "") ≠ ""
  let code : Nat ← CommandLine.run plain (args.map Text.ofString)
  if code = 0 then
    let elapsed := (← IO.monoMsNow) - start
    Host.printLine ("Build time: " ++ Text.ofNat elapsed ++ "ms")
  return code.toUInt32
