import Assembly.Engine.Load

/-!
# Calls

Arguments are pushed from right to left, one word each, and removed by the caller.  The
result is copied out of the return register into a new temporary.
-/

namespace Assembly

namespace Target

/-- Puts the address of a label into a register. -/
def labelLoad (t : Target) (reg label : Text) : Instr :=
  if t.is64Bit then .mk .lea [.reg reg, .direct label] else .mk .mov [.reg reg, .sym label]

/-- Puts a floating-point register into a new word on the stack. -/
def floatPush (t : Target) (arg : Value) : List Instr :=
  [.mk .sub [.reg t.stackPointer, .num t.wordSize],
    .mk (t.floatMove arg.type) [.direct t.stackPointer, .reg arg.name]]

/-- Takes bytes off the stack. -/
def drop (t : Target) (bytes : Nat) : Instr := .mk .add [.reg t.stackPointer, .num bytes]

/-- Copies the result of a call out of the return register of its class. -/
def resultMove (t : Target) (reg type : Text) : Instr :=
  if TypePolicy.isFloat type then .mk (t.floatMove type) [.reg reg, .reg t.floatReturnReg]
  else .mk .mov [.reg reg, .reg t.returnReg]

/-- The call, and the removal of the arguments if there are some. -/
def callThenDrop (t : Target) (name : Text) (count : Nat) : List Instr :=
  .mk .call [.sym name] :: if count = 0 then [] else [t.drop (count * t.wordSize)]

end Target

namespace Emit

/-- Pushes an integer value through a temporary register. -/
def pushThroughTemp (v : Value) (type : Text) : Emit Unit := do
  let t := (← read).target
  withTemp t.wordType fun tmp => instrs [t.intLoad tmp.name v type, .push tmp.name]

/-- Pushes the address of a stored text. -/
def pushLabel (label : Text) : Emit Unit := do
  let t := (← read).target
  withTemp t.wordType fun tmp => instrs [t.labelLoad tmp.name label, .push tmp.name]

/-- Pushes one argument. -/
def pushArg (arg : Value) : Emit Unit := do
  let t := (← read).target
  if arg.isRegister ∧ arg.isFloat then instrs (t.floatPush arg)
  else if arg.isRegister then instrs (t.widening arg ++ [Instr.push arg.name])
  else if arg.kind = .string then do
    let label ← stringLabel arg.text
    pushLabel label
  else do
    let type := t.typeOrWord arg.type
    let arg ← materialize arg type
    pushThroughTemp arg type

/-- Pushes arguments from the last to the first.  A failure names the argument, counted
from `index`. -/
def pushArgs (callee : Text) : Nat → List Value → Emit Unit
  | _, [] => pure ()
  | index, arg :: rest => do
    pushArgs callee (index + 1) rest
    (pushArg arg).rewording (.argument callee index)

/-- Calls a function and returns its result as a temporary of the given type. -/
def callAs (name : Text) (args : List Value) (type : Text) : Emit Value := do
  let t := (← read).target
  pushArgs name 0 args
  instrs (t.callThenDrop name args.length)
  let r ← allocReg type
  instr (t.resultMove r.name type)
  return r

/-- Calls a function whose result is a word. -/
def call (name : Text) (args : List Value) : Emit Value := do
  callAs name args (← read).target.wordType

end Emit

end Assembly
