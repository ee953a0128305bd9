import Assembly.Engine.Cast
import Assembly.Engine.Function
import Assembly.Engine.Print
import Assembly.Script.Error
import Assembly.Script.Template
import Assembly.Script.Tree

/-!
# Running scripts

A script drives an engine statement by statement.  Names bound outside of functions live
to the end of the script; names bound in a function are dropped with it.  The first
failure ends the run, and what was emitted before it stays.
-/

namespace Assembly.Script

/-- The function a script is in, and the names bound there. -/
structure Scope where
  fn : FunctionRef
  names : Bindings
deriving DecidableEq, Repr

/-- The state of a run: the engine, the names bound outside of functions, and the function
the run is in. -/
structure Emitter where
  engine : Engine
  globals : Bindings
  scope : Option Scope
deriving DecidableEq, Repr

namespace Emitter

def new (e : Engine) : Emitter := ⟨e, [], none⟩

/-- Binds a name in the function the run is in, or outside of functions. -/
def bind (em : Emitter) (name : Text) (v : Value) : Emitter :=
  match em.scope with
  | some s => { em with scope := some { s with names := s.names.insert name v } }
  | none => { em with globals := em.globals.insert name v }

/-- The value of a name; a function's own names come first. -/
def lookup (em : Emitter) (name : Text) : Option Value :=
  match em.scope.bind (·.names.get? name) with
  | some v => some v
  | none => em.globals.get? name

/-- Drops the binding that a lookup finds. -/
def unbind (em : Emitter) (name : Text) : Emitter :=
  match em.scope with
  | some s =>
    if (s.names.get? name).isSome then
      { em with scope := some { s with names := s.names.erase name } }
    else { em with globals := em.globals.erase name }
  | none => { em with globals := em.globals.erase name }

/-- The text of a hole in code: a register at the size asked for, any other value as it is. -/
def holeText (em : Emitter) (name : Text) (size : Option Nat) : Option Text :=
  (em.lookup name).map fun v =>
    match size with
    | some n => if v.isRegister then em.engine.target.resize v.name n else v.operand.text
    | none => v.operand.text

end Emitter

/-- The parameters that a function is begun with. -/
def Func.signature (f : Func) : List Param := f.params.map fun p => ⟨p.name, p.type⟩

abbrev Emission := ExceptT ScriptError (StateM Emitter)

namespace Emission

/-- Fails at a position. -/
def fail {α : Type} (pos : Pos) (f : ScriptFault) : Emission α := throw ⟨f, pos, []⟩

/-- Runs an operation of the engine; a refusal is located. -/
def engine {α : Type} (pos : Pos) (m : Emit α) : Emission α :=
  ExceptT.mk do
    let em ← get
    let (r, e) := m.run.run em.engine
    set { em with engine := e }
    return r.mapError fun c => ⟨.engine c, pos, []⟩

def bind (name : Text) (v : Value) : Emission Unit := modify (·.bind name v)

/-- The function that the run is in, or else a failure. -/
def function (pos : Pos) (f : ScriptFault) : Emission FunctionRef := do
  match (← get).scope with
  | some s => return s.fn
  | none => fail pos f

/-- The text that a string stands for: one that is itself in quotes is read once more. -/
def stringText (pos : Pos) (t : Text) : Emission Text :=
  if 2 ≤ t.length ∧ (t.head? = some 34 ∨ t.head? = some 96) then
    match Text.unquote? t with
    | some u => return u
    | none => fail pos (.badString t)
  else return t

/-- The value of a term.  Integers take the type of a word, so that they move as full
registers. -/
def term (x : Term) : Emission Value :=
  match x.form with
  | .string t => do return .ofText (← stringText x.pos t)
  | .number t => do
    match Value.ofNumeral? t with
    | none => fail x.pos (.engine (.badNumeral t))
    | some v =>
      if v.isFloat then return v
      else return v.withType (← get).engine.target.wordType
  | .name n => do
    match (← get).lookup n with
    | some v => return v
    | none => fail x.pos (.undefinedName n)

def call (pos : Pos) (c : CallForm) : Emission Value := do
  let args ← c.args.mapM term
  match c.type with
  | none => engine pos (Emit.call c.name args)
  | some type => engine pos (Emit.callAs c.name args type)

def expr (x : Expr) : Emission Value :=
  match x.form with
  | .param name => do
    let f ← function x.pos .paramOutside
    engine x.pos (Emit.param f name)
  | .load value type => do
    let v ← term value
    engine x.pos (Emit.loadValue v (type.getD []))
  | .alloc type => engine x.pos (Emit.allocReg type)
  | .call c => call x.pos c
  | .cast value type => do
    let v ← term value
    engine x.pos (Emit.cast v type)
  | .term value => term value

/-- The code of a template with its holes filled. -/
def code (pos : Pos) (t : Text) : Emission Text := do
  let t ← stringText pos t
  match Template.fill (← get).holeText (Template.pieces t) with
  | .ok code => return code
  | .error name => fail pos (.undefinedInAsm name)

/-- The code that an `exit` statement states; zero if it states none. -/
def exitCode : Option Term → Emission Int
  | none => return 0
  | some x =>
    match x.form with
    | .number t =>
      match Text.toInt64? t with
      | some n => return n
      | none => fail x.pos .exitCode
    | _ => fail x.pos .exitCode

def stmt (s : Stmt) : Emission Unit :=
  match s.form with
  | .const name type value => do
    let lit ← term value
    let v ← engine s.pos (Emit.declareConst name lit (type.getD []))
    bind name v
  | .globalVar name type => do
    let v ← engine s.pos (Emit.declareGlobal name type)
    bind name v
  | .localVar name type => do
    let f ← function s.pos .localOutside
    let v ← engine s.pos (Emit.declareLocal f name type)
    bind name v
  | .bind name value => do
    let v ← expr value
    bind name v
  | .call c => do
    let r ← call s.pos c
    engine s.pos (Emit.release r)
  | .print value => do
    let v ← term value
    engine s.pos (Emit.print v)
  | .asm t => do
    let t ← code s.pos t
    engine s.pos (Emit.block t)
  | .free name => do
    match (← get).lookup name with
    | none => fail s.pos (.undefinedName name)
    | some v =>
      if v.isRegister then
        engine s.pos (Emit.release v)
        modify (·.unbind name)
      else fail s.pos (.notRegister name v.kind)
  | .ret value => do
    let f ← function s.pos .returnOutside
    let v ← term value
    engine s.pos (Emit.returnValue f v)
  | .exit c => do
    let n ← exitCode c
    engine s.pos (Emit.exit n)

/-- Runs `body` in a scope of its own, which is left also after a failure. -/
def inScope (f : FunctionRef) (body : Emission Unit) : Emission Unit :=
  ExceptT.mk do
    modify fun em => { em with scope := some ⟨f, []⟩ }
    let r ← body.run
    modify fun em => { em with scope := none }
    return r

def func (f : Func) : Emission Unit := do
  let ref ← engine f.pos (Emit.beginFunction f.name f.signature)
  inScope ref do
    f.body.forM stmt
    engine f.pos (Emit.endFunction ref)

def item : Item → Emission Unit
  | .func f => func f
  | .stmt s => stmt s

end Emission

/-- Runs a script on an engine: whether it succeeded, and the engine after it. -/
def emit (s : Script) (e : Engine) : Except ScriptError Unit × Engine :=
  let (r, em) := (s.items.forM Emission.item).run.run (.new e)
  (r.mapError fun err => { err with file := s.file }, em.engine)

end Assembly.Script
