import Assembly.Engine.Emit

/-!
# The program text

The segments one after the other, and a summary of the engine for people.
-/

namespace Assembly

namespace Engine

/-- A section with its heading; an empty one is left out. -/
def sectionText (heading : Text) (entries : List Text) : List Text :=
  if entries.isEmpty then [] else ("\n" ++ heading) :: entries

/-- The lines of the program.  The code section and the entry point are always there. -/
def programLines (e : Engine) : List Text :=
  let code := (e.funcs ++ e.builtins).map (·.text)
  ["bits " ++ Text.ofNat e.target.bits] ++
    sectionText "section .bss" (e.bss.map (·.text)) ++
    sectionText "section .data" (e.data.map (·.text)) ++
    [Text.ofString "\nsection .text", "    global " ++ e.target.entryPoint] ++
    (if code.isEmpty then [] else [] :: code) ++
    ["\n" ++ e.target.entryPoint ++ ":"] ++ e.text.map (·.text)

/-- The program text.  The code of a function that is still open is not part of it. -/
def program (e : Engine) : Text := Text.unlines e.programLines

/-- A summary of the state. -/
def dump (e : Engine) : Text :=
  "=== Engine (" ++ e.target.name ++ ", strict=" ++ Text.ofBool e.strict ++ ") ===\n" ++
    "  bss=" ++ Text.ofNat e.bss.length ++ " data=" ++ Text.ofNat e.data.length ++
    " funcs=" ++ Text.ofNat e.funcs.length ++ " builtins=" ++ Text.ofNat e.builtins.length ++
    " text=" ++ Text.ofNat e.text.length ++ " lines\n" ++
    "  int regs in use:   " ++ Text.bracketed (e.regs.inUse .int) ++ "\n" ++
    "  float regs in use: " ++ Text.bracketed (e.regs.inUse .float) ++ "\n" ++
    "  print_int=" ++ Text.ofBool e.printIntAdded ++
    " print_float=" ++ Text.ofBool e.printFloatAdded ++ "\n" ++
    match e.current with
    | none => []
    | some f =>
      "  open function: " ++ f.name ++ " (saved=" ++ Text.bracketed f.saved ++ ", locals=" ++
        Text.ofNat f.localSize ++ " bytes)\n"

end Engine

namespace Emit

/-- The program text; leaving a function out is worth a warning. -/
def finalize : Emit Text := do
  let e ← read
  if let some f := e.current then
    warn "finalize with an open function; its body is not emitted" [("func", f.name)]
  return e.program

end Emit

end Assembly
