import Assembly.Engine.Error
import Assembly.Machine.Register

/-!
# The register file on its own

A register file also serves callers that have no engine.  They give it commands, one after
the other, and it answers each of them.
-/

namespace Assembly

/-- What a caller can ask of a register file. -/
inductive RegisterCommand
  | alloc (c : RegClass)
  | free (c : RegClass) (reg : Text)
  | reset
deriving DecidableEq, Repr

/-- What a register file answers. -/
inductive RegisterAnswer
  | handed (a : Allocation)
  /-- Whether the register was in use. -/
  | freed (was : Bool)
  | done
deriving DecidableEq, Repr

namespace RegisterFile

/-- Carries out a command.  What is refused leaves the file as it is. -/
def obey (f : RegisterFile) : RegisterCommand → Except EmitError RegisterAnswer × RegisterFile
  | .alloc c =>
    match f.alloc? c with
    | some (a, g) => (.ok (.handed a), g)
    | none => (.error (.poolExhausted c (f.pool c).length), f)
  | .free c reg => (.ok (.freed (f.uses c reg)), f.free c reg)
  | .reset => (.ok .done, f.reset)

/-- The file after commands given in turn; one that is refused does not stop the others. -/
def obeyAll (f : RegisterFile) (cs : List RegisterCommand) : RegisterFile :=
  cs.foldl (fun f c => (f.obey c).2) f

end RegisterFile

end Assembly
