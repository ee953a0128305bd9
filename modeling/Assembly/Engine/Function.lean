import Assembly.Engine.Load

/-!
# Functions

The frame of a function, relative to the base pointer: the parameters from two words up,
one word each; the return address one word up; the saved base pointer; the locals below
it; below them the registers that the function saves.

The code of a function is put together when it ends, because only then its locals and its
saved registers are known.  Functions are named by the identity of their frame, which
stays valid after the end, when it can still be asked about.
-/

namespace Assembly

/-- A function by the identity of its frame, with its name. -/
structure FunctionRef where
  id : Nat
  name : Text
deriving DecidableEq, Repr

namespace Target

/-- Loads a parameter of a type from its stack slot, with the sign extended to a word. -/
def fetch (t : Target) (reg type : Text) (slot : Address) : Instr :=
  let size := t.typeSize type
  if TypePolicy.isFloat type then .mk (t.floatMove type) [.reg reg, .mem slot]
  else if size < t.wordSize then
    .mk (t.signExtend size) [.reg reg, .sized (t.operandSize size) (.mem slot)]
  else .mk .mov [.reg reg, .mem slot]

/-- The stack slot of a parameter by its place. -/
def paramSlot (t : Target) (index : Nat) : Address :=
  .above t.basePointer ((index + 2) * t.wordSize)

/-- Moves an integer value into the return register. -/
def intReturn (t : Target) (v : Value) : Instr :=
  let size := t.typeSize v.type
  if v.isMemory ∧ size < t.wordSize then
    .mk (t.signExtend size) [.reg t.returnReg, t.sizedOperand size v]
  else .mk .mov [.reg t.returnReg, v.operand]

/-- Moves a floating value into the floating return register. -/
def floatReturn (t : Target) (v : Value) : Instr :=
  .mk (t.floatMove v.type) [.reg t.floatReturnReg, v.operand]

end Target

namespace Emit

/-- Begins a function. -/
def beginFunction (name : Text) (params : List Param) : Emit FunctionRef := do
  if let some f := (← read).current then throw (.functionOpen name f.name)
  claimSymbol name
  params.forM fun p => (checkType p.type).rewording (.parameter name p.name)
  let id := (← read).nextId
  move (.enter name params)
  debug "begin function" [("name", name), ("params", Text.ofNat params.length)]
  return ⟨id, name⟩

/-- The open function, which must be the given one. -/
def openFrame (f : FunctionRef) : Emit Frame := do
  match (← read).current with
  | some g => if g.id = f.id then return g else throw (.functionEnded f.name)
  | none => throw (.functionEnded f.name)

/-- Declares a local. -/
def declareLocal (f : FunctionRef) (name type : Text) : Emit Value := do
  let f ← openFrame f
  checkType type
  let e ← read
  if (f.locals.get? name).isSome ∧ e.strict then throw (.duplicateLocal name f.name)
  move (.addLocal name type)
  return f.nextSlot e.target name type

/-- The register that holds a parameter.  The first use loads it; it stays in its register
until the function ends. -/
def param (f : FunctionRef) (name : Text) : Emit Value := do
  let f ← openFrame f
  if let some r := f.cached.get? name then return r
  match f.params.zipIdx.find? (·.1.name = name) with
  | none => throw (.unknownParam name f.name)
  | some (p, index) =>
    let t := (← read).target
    let r ← allocRegAs p.type false
    instr (t.fetch r.name p.type (t.paramSlot index))
    move (.cache name r)
    return r

/-- Moves a value into the return register of its class. -/
def returnValue (f : FunctionRef) (v : Value) : Emit Unit := do
  let f ← openFrame f
  let t := (← read).target
  if v.isFloat then do
    let v ← materialize v v.type
    instr (t.floatReturn v)
  else if v.kind = .string then throw (.returnString f.name)
  else instr (t.intReturn v)

/-- Ends the open function and writes its code. -/
def endFunction (f : FunctionRef) : Emit Unit := do
  let f ← openFrame f
  move .leave
  debug "end function"
    [("name", f.name), ("saved", Text.bracketed f.saved), ("locals", Text.ofNat f.localSize)]

end Emit

end Assembly
