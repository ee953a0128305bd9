import Assembly.Engine.Move

/-!
# Operations of the engine

An operation looks at the engine and answers with a value, or with the reason why it is
refused, and with the moves it makes.  The engine after it is the engine with these moves
made; the moves made before a refusal stay made.
-/

namespace Assembly

def Emit (α : Type) : Type := Engine → Except EmitError α × List Move

namespace Emit

variable {α β : Type}

/-- The operation carried out on an engine. -/
def run (m : Emit α) : StateM Engine (Except EmitError α) := fun e => ((m e).1, e.makeAll (m e).2)

instance : Monad Emit where
  pure a := fun _ => (.ok a, [])
  bind m f := fun e =>
    match (m e).1 with
    | .ok a =>
      let rest := f a (e.makeAll (m e).2)
      (rest.1, (m e).2 ++ rest.2)
    | .error x => (.error x, (m e).2)

instance : MonadExceptOf EmitError Emit where
  throw x := fun _ => (.error x, [])
  tryCatch m handle := fun e =>
    match (m e).1 with
    | .ok a => (.ok a, (m e).2)
    | .error x =>
      let rest := handle x (e.makeAll (m e).2)
      (rest.1, (m e).2 ++ rest.2)

/-- The engine as the moves so far have left it. -/
instance : MonadReaderOf Engine Emit where
  read := fun e => (.ok e, [])

def moves (ms : List Move) : Emit Unit := fun _ => (.ok (), ms)

def move (m : Move) : Emit Unit := moves [m]

/-- Runs an operation, then another whether or not the first was refused.  The answer is
that of the first. -/
def finishing (m : Emit α) (last : Emit Unit) : Emit α := fun e =>
  ((m e).1, (m e).2 ++ (last (e.makeAll (m e).2)).2)

/-- Runs an operation; a refusal of it is passed on in other words. -/
def rewording (m : Emit α) (words : EmitError → EmitError) : Emit α := fun e =>
  ((m e).1.mapError words, (m e).2)

def warn (message : Text) (fields : List (Text × Text)) : Emit Unit :=
  move (.log .warn message fields)

def debug (message : Text) (fields : List (Text × Text)) : Emit Unit :=
  move (.log .debug message fields)

def instr (i : Instr) : Emit Unit := move (.instr i)

def instrs (is : List Instr) : Emit Unit := moves (is.map .instr)

/-- Emits one line of text as it is. -/
def rawLine (t : Text) : Emit Unit := move (.raw t)

/-- A text indented like an instruction. -/
def indented (t : Text) : Text := "    " ++ t

/-- Emits one indented line of text. -/
def rawInstr (t : Text) : Emit Unit := rawLine (indented t)

/-- The instructions in a block of text, one a line.  The block is trimmed and then each of its
lines, and blank lines are left out. -/
def blockInstrs (code : Text) : List Text :=
  ((Text.lines (Text.trim code)).map Text.trim).filter (· ≠ [])

/-- Emits the instructions of a block of text. -/
def block (code : Text) : Emit Unit := moves (((blockInstrs code).map indented).map .raw)

/-! ## Policy -/

/-- A type must have a size rule; a permissive engine warns and takes a word. -/
def checkType (type : Text) : Emit Unit := do
  let e ← read
  if e.target.knows type then return
  if e.strict then throw (.unknownType type)
  warn "unknown type, using word size" [("type", type), ("size", Text.ofNat e.target.wordSize)]

/-- A symbol must be new; a permissive engine warns and defines it again. -/
def claimSymbol (name : Text) : Emit Unit := do
  let e ← read
  if e.defines name then
    if e.strict then throw (.duplicateSymbol name)
    warn "duplicate symbol" [("name", name)]
  move (.define name)

/-! ## Registers -/

/-- Hands out a register of the type's class. -/
def allocRegAs (type : Text) (temp : Bool) : Emit Value := do
  let e ← read
  let c := TypePolicy.regClass type
  match e.regs.alloc? c with
  | none => throw (.poolExhausted c (e.regs.pool c).length)
  | some (a, _) =>
    move (.take c)
    if !a.fresh then
      warn "register pool exhausted, reusing first entry" [("class", c.text), ("reg", a.reg)]
    debug "alloc" [("reg", a.reg), ("type", type), ("temp", Text.ofBool temp)]
    return .ofRegister a.reg type temp

/-- Hands out a temporary register. -/
def allocReg (type : Text) : Emit Value := allocRegAs type true

/-- Takes back a temporary register that is in use; every other value is left alone. -/
def release (v : Value) : Emit Unit := do
  let c := TypePolicy.regClass v.type
  if v.isRegister ∧ v.temp ∧ (← read).regs.uses c v.name then
    move (.give c v.name)
    debug "release" [("reg", v.name)]

/-- Runs `body` with a temporary register and takes the register back, also after a
refusal. -/
def withTemp (type : Text) (body : Value → Emit α) : Emit α := do
  let r ← allocReg type
  (body r).finishing (release r)

end Emit

end Assembly
