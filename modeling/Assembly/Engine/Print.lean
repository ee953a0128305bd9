import Assembly.Engine.Call

/-!
# Printing and exit

Texts are written by a system call in place; numbers go through the runtime routines, which
are added to the program the first time they are needed.
-/

namespace Assembly

namespace Target

/-- The pool registers that writing a text overwrites, with those that the trap itself
overwrites. -/
def writeClobbers : Target → List Text
  | bits16 => ["bx", "cx", "dx"]
  | bits32 => ["ebx", "ecx", "edx"]
  | bits64 => ["rcx", "rdx", "r11"]

/-- Loads what the system call that writes `size` bytes at a label expects. -/
def writeArgs (t : Target) (label : Text) (size : Nat) : List Instr :=
  match t with
  | bits16 =>
    [.mk .mov [.reg "ah", .hex "40"],
      .mk .mov [.reg "bx", .num 1],
      .mk .mov [.reg "cx", .num size],
      .mk .mov [.reg "dx", .sym label]]
  | bits32 =>
    [.mk .mov [.reg "eax", .num 4],
      .mk .mov [.reg "ebx", .num 1],
      .mk .mov [.reg "ecx", .sym label],
      .mk .mov [.reg "edx", .num size]]
  | bits64 =>
    [.mk .mov [.reg "rax", .num 1],
      .mk .mov [.reg "rdi", .num 1],
      .mk .lea [.reg "rsi", .direct label],
      .mk .mov [.reg "rdx", .num size]]

def writeCall (t : Target) (label : Text) (size : Nat) : List Instr :=
  t.writeArgs label size ++ [t.trap]

/-- Loads what the system call that ends the process expects. -/
def exitArgs (t : Target) (code : Int) : List Instr :=
  match t with
  | bits16 => [.mk .mov [.reg "ah", .hex "4C"], .mk .mov [.reg "al", .num code]]
  | bits32 =>
    [.mk .mov [.reg t.returnReg, .num 1],
      if code = 0 then .mk .xor [.reg "ebx", .reg "ebx"] else .mk .mov [.reg "ebx", .num code]]
  | bits64 => [.mk .mov [.reg t.returnReg, .num 60], .mk .mov [.reg "rdi", .num code]]

def exitCall (t : Target) (code : Int) : List Instr := t.exitArgs code ++ [t.trap]

/-- Puts a single-precision register into a new slot of eight bytes on the stack. -/
def singlePush (t : Target) (reg : Text) : List Instr :=
  .mk .sub [.reg t.stackPointer, .num 8] ::
    match t with
    | bits16 => [.mk .mov [.reg "si", .reg "sp"], .mk .movss [.direct "si", .reg reg]]
    | bits32 | bits64 => [.mk .movss [.direct t.stackPointer, .reg reg]]

/-- Narrows a floating value of a type to single precision. -/
def narrow (t : Target) (reg : Text) (v : Value) (type : Text) : Instr :=
  if t.typeSize type = 8 then .mk .cvtsd2ss [.reg reg, v.operand]
  else .mk .movss [.reg reg, v.operand]

end Target

/-- The type a value is printed with as a floating-point number. -/
def Value.floatType (v : Value) : Text := if v.isFloat then v.type else "float"

namespace Emit

/-- Adds a routine and says so. -/
def addBuiltin (b : Builtin) : Emit Unit := do
  move (.link b)
  debug "injected builtin" [("name", b.label)]

/-- Adds `print_int` and its storage, once. -/
def needPrintInt : Emit Unit := do
  if (← read).hasBuiltin .printInt then return
  moves [.reserve ⟨"print_buffer", 32⟩, .store ⟨"newline", .db, .number "10"⟩,
    .define "print_buffer", .define "newline", .define "print_int"]
  addBuiltin .printInt

/-- Adds `print_float`, its storage and what it shares with `print_int`, once. -/
def needPrintFloat : Emit Unit := do
  if (← read).hasBuiltin .printFloat then return
  needPrintInt
  moves [.reserve ⟨"float_buf", 64⟩, .define "float_buf", .define "print_float"]
  addBuiltin .printFloat

/-- Writes a text and a newline.  Registers in use that the system call overwrites are
kept on the stack meanwhile. -/
def printString (s : Text) : Emit Unit := do
  let e ← read
  let name := generatedName "str_print" e.printBuffers
  move .countPrint
  addGenerated name .db (.bytes s 10)
  let live := e.target.writeClobbers.filter (e.regs.uses .int)
  instrs (live.map .push ++ e.target.writeCall name (s.length + 1) ++ live.reverse.map .pop)

/-- Prints a floating-point number.  The routine takes single precision, so a double is
narrowed first. -/
def printFloat (v : Value) : Emit Unit := do
  needPrintFloat
  let t := (← read).target
  let type := v.floatType
  let v ← materialize v type
  if v.isRegister ∧ t.typeSize type ≠ 8 then instrs (t.singlePush v.name)
  else withTemp "float" fun tmp => instrs (t.narrow tmp.name v type :: t.singlePush tmp.name)
  instrs [.mk .call [.sym "print_float"], t.drop 8]

/-- Prints an integer. -/
def printInt (v : Value) : Emit Unit := do
  needPrintInt
  let t := (← read).target
  if v.isRegister then instrs (t.widening v ++ [Instr.push v.name])
  else pushThroughTemp v (t.typeOrWord v.type)
  instrs (t.callThenDrop "print_int" 1)

/-- Prints a value and a newline. -/
def print (v : Value) : Emit Unit :=
  if v.kind = .string then printString v.text
  else if v.isFloat then printFloat v
  else printInt v

/-- Ends the process with a code. -/
def exit (code : Int) : Emit Unit := do
  instrs ((← read).target.exitCall code)

end Emit

end Assembly
