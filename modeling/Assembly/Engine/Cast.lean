import Assembly.Engine.Load

/-!
# Casts

A cast takes a value of one type to a new temporary register of another.  What is emitted
depends on the classes of the two types; scratch registers needed on the way are taken
back before the cast returns.
-/

namespace Assembly

namespace Target

/-- Between integer types: the sign is extended if the target type is wider, otherwise the
low bytes are moved. -/
def intToInt (t : Target) (dst : Text) (v : Value) (type : Text) : Instr :=
  let srcSize := t.typeSize v.type
  let dstSize := t.typeSize type
  let low := t.resize dst dstSize
  if v.kind = .number then .mk .mov [.reg low, .literal v.text]
  else if srcSize < dstSize then
    if v.isRegister then .mk (t.signExtend srcSize) [.reg dst, .reg (t.resize v.name srcSize)]
    else .mk (t.signExtend srcSize) [.reg dst, t.sizedOperand srcSize v]
  else if v.isRegister then .mk .mov [.reg low, .reg (t.resize v.name dstSize)]
  else .mk .mov [.reg low, v.operand]

/-- The conversion of an integer to a floating type. -/
def intConversion (t : Target) (type : Text) : Mnemonic :=
  if t.typeSize type = 4 then .cvtsi2ss else .cvtsi2sd

/-- The bytes that the conversion reads of an integer. -/
def readSize (t : Target) (v : Value) : Nat := if t.typeSize v.type = 8 then 8 else 4

/-- From an integer register to a floating type.  The conversion reads four or eight bytes,
so a narrower source is widened in place. -/
def regToFloat (t : Target) (dst : Text) (v : Value) (type : Text) : List Instr :=
  let srcSize := t.typeSize v.type
  let wide := t.resize v.name (t.readSize v)
  (if srcSize < 4 then [Instr.mk .movsx [.reg wide, .reg (t.resize v.name srcSize)]] else []) ++
    [Instr.mk (t.intConversion type) [.reg dst, .reg wide]]

/-- From any other integer to a floating type, through a scratch register. -/
def operandToFloat (t : Target) (dst tmp : Text) (v : Value) (type : Text) : List Instr :=
  let srcSize := t.typeSize v.type
  let wide := t.resize tmp (t.readSize v)
  [if v.kind = .number then .mk .mov [.reg wide, .literal v.text]
    else if srcSize < 4 then .mk .movsx [.reg wide, t.sizedOperand srcSize v]
    else .mk .mov [.reg wide, v.operand],
    .mk (t.intConversion type) [.reg dst, .reg wide]]

/-- From a floating register to an integer type, by the precision of the source. -/
def floatToInt (t : Target) (dst src : Text) (srcType type : Text) : Instr :=
  .mk (if t.typeSize srcType = 4 then .cvtss2si else .cvtsd2si)
    [.reg (if t.typeSize type < 8 then t.resize dst 4 else dst), .reg src]

/-- Between floating types: a conversion if the precision changes, otherwise a move. -/
def floatToFloat (t : Target) (dst : Text) (v : Value) (type : Text) : Instr :=
  let srcSize := t.typeSize v.type
  let dstSize := t.typeSize type
  if srcSize = 4 ∧ dstSize = 8 then .mk .cvtss2sd [.reg dst, v.operand]
  else if srcSize = 8 ∧ dstSize = 4 then .mk .cvtsd2ss [.reg dst, v.operand]
  else .mk (t.floatMove type) [.reg dst, v.operand]

end Target

namespace Emit

def intToInt (v : Value) (type : Text) : Emit Value := do
  let t := (← read).target
  let dst ← allocReg type
  instr (t.intToInt dst.name v type)
  return dst

def intToFloat (v : Value) (type : Text) : Emit Value := do
  let t := (← read).target
  let dst ← allocReg type
  if v.isRegister then instrs (t.regToFloat dst.name v type)
  else withTemp t.wordType fun tmp => instrs (t.operandToFloat dst.name tmp.name v type)
  return dst

def floatToInt (v : Value) (type : Text) : Emit Value := do
  let t := (← read).target
  let dst ← allocReg type
  if v.isRegister then instr (t.floatToInt dst.name v.name v.type type)
  else do
    let v ← materialize v v.type
    withTemp v.type fun tmp =>
      instrs [t.load tmp.name v v.type, t.floatToInt dst.name tmp.name v.type type]
  return dst

def floatToFloat (v : Value) (type : Text) : Emit Value := do
  let t := (← read).target
  let dst ← allocReg type
  let v ← materialize v v.type
  instr (t.floatToFloat dst.name v type)
  return dst

/-- Converts a value to a type.  A value without a type counts as a word. -/
def cast (v : Value) (type : Text) : Emit Value :=
  if v.kind = .string ∨ v.kind = .empty then throw (.castOperand v.kind)
  else do
    checkType type
    let v := v.withType ((← read).target.typeOrWord v.type)
    match TypePolicy.regClass v.type, TypePolicy.regClass type with
    | .int, .int => intToInt v type
    | .int, .float => intToFloat v type
    | .float, .int => floatToInt v type
    | .float, .float => floatToFloat v type

end Emit

end Assembly
