import Assembly.Engine.Declare

/-!
# Loads

Values in registers.  A memory operand narrower than a word is sign-extended when it is
loaded, so that a register carries the sign of its value.

Which instruction is emitted depends on the target and the operands alone, so it is chosen
by functions of these; the operations add the registers.
-/

namespace Assembly

namespace Target

/-- The move that extends the sign of a source of `size` bytes to a word. -/
def signExtend (t : Target) (size : Nat) : Mnemonic :=
  if size = 4 ∧ t.is64Bit then .movsxd else .movsx

/-- The move for the precision of a floating type. -/
def floatMove (t : Target) (type : Text) : Mnemonic :=
  if t.typeSize type = 4 then .movss else .movsd

/-- A memory operand of `size` bytes with its size spelled out. -/
def sizedOperand (t : Target) (size : Nat) (v : Value) : Operand :=
  .sized (t.operandSize size) v.operand

/-- Moves an integer value of a type into the full width of a register. -/
def intLoad (t : Target) (reg : Text) (v : Value) (type : Text) : Instr :=
  let size := t.typeSize type
  if v.kind = .number then .mk .mov [.reg reg, .literal v.text]
  else if v.isMemory ∧ size < t.wordSize then
    .mk (t.signExtend size) [.reg reg, t.sizedOperand size v]
  else .mk .mov [.reg (t.resize reg size), v.operand]

/-- Moves a value of a type into a register of its class. -/
def load (t : Target) (reg : Text) (v : Value) (type : Text) : Instr :=
  if TypePolicy.isFloat type then .mk (t.floatMove type) [.reg reg, v.operand]
  else t.intLoad reg v type

/-- Extends the sign of a register that holds an integer narrower than a word.  Narrow
moves leave the upper bits as they were. -/
def widening (t : Target) (v : Value) : List Instr :=
  let size := t.typeSize v.type
  if size < t.wordSize then
    [.mk (t.signExtend size) [.reg v.name, .reg (t.resize v.name size)]]
  else []

/-- The type of a value, or the word type if it has none. -/
def typeOrWord (t : Target) (type : Text) : Text := if type.isEmpty then t.wordType else type

end Target

namespace Emit

/-- The value in a register: a register as it is, anything else in a new temporary of the
given type.  An empty type is the value's own. -/
def loadValue (v : Value) (type : Text) : Emit Value :=
  if v.isRegister then return v
  else if v.kind = .string then throw .loadString
  else do
    let t := (← read).target
    let type := t.typeOrWord (if type.isEmpty then v.type else type)
    let v ← materialize v type
    let r ← allocReg type
    instr (t.load r.name v type)
    return r

end Emit

end Assembly
