import Assembly.Machine.Target

/-!
# The routine that prints an integer

`print_int` takes a signed word in the first stack argument and writes it in decimal with
a newline.  The digits are put into `print_buffer` from its end downwards, then written in
one go.  All widths run the same conversion on their own registers; only the system calls
differ.
-/

namespace Assembly.Routine

/-- Registers of the conversion to decimal: the number, the place in the buffer, the
divisor, the mark of a negative number, and the remainder. -/
structure DigitRegs where
  number : Text
  place : Text
  divisor : Text
  negative : Text
  remainder : Text
deriving DecidableEq, Repr

/-! ## Pieces shared by the routines -/

/-- The label, and the base pointer set up. -/
def enter (t : Target) (name : Text) : List Line :=
  [.label name, .op .push [.reg t.basePointer],
    .op .mov [.reg t.basePointer, .reg t.stackPointer]]

/-- The stack as it was at the label, and the return. -/
def leave (t : Target) : List Line :=
  [.op .mov [.reg t.stackPointer, .reg t.basePointer], .op .pop [.reg t.basePointer], .op .ret []]

def pushAll (regs : List Text) : List Line := regs.map fun r => .op .push [.reg r]

/-- Takes back what `pushAll` pushed. -/
def popAll (regs : List Text) : List Line := regs.reverse.map fun r => .op .pop [.reg r]

/-- Points the place at the byte before the end of a buffer, whose last byte is cleared,
and sets the divisor. -/
def openBuffer (r : DigitRegs) (buffer : Text) : List Line :=
  [.op .lea [.reg r.place, .mem (.above buffer 31)],
    .op .mov [.sized .byte (.direct r.place), .num 0],
    .op .dec [.reg r.place],
    .op .mov [.reg r.divisor, .num 10]]

/-- Writes the digits of the number downwards from the place, the last digit first. -/
def digitLoop (r : DigitRegs) (label : Text) : List Line :=
  [.label label,
    .op .xor [.reg r.remainder, .reg r.remainder],
    .op .div [.reg r.divisor],
    .op .add [.reg "dl", .char 48],
    .op .mov [.direct r.place, .reg "dl"],
    .op .dec [.reg r.place],
    .op .test [.reg r.number, .reg r.number],
    .op .jnz [.sym label]]

/-- Puts a minus sign in front if the number is negative, and points the place at the first
character. -/
def signDigits (r : DigitRegs) (label : Text) : List Line :=
  [.op .test [.reg r.negative, .reg r.negative],
    .op .jz [.sym label],
    .op .mov [.sized .byte (.direct r.place), .char 45],
    .op .dec [.reg r.place],
    .label label,
    .op .inc [.reg r.place]]

/-! ## The routine -/

namespace PrintInt

def regs : Target → DigitRegs
  | .bits16 => ⟨"ax", "si", "bx", "di", "dx"⟩
  | .bits32 => ⟨"eax", "esi", "ebx", "edi", "edx"⟩
  | .bits64 => ⟨"rax", "rsi", "rbx", "r13", "rdx"⟩

/-- The registers the routine gives back as it found them. -/
def saved : Target → List Text
  | .bits16 => ["bx", "si", "di"]
  | .bits32 => ["ebx", "esi", "edi"]
  | .bits64 => ["rbx", "r12", "r13"]

/-- Makes the number nonnegative and notes its sign. -/
def takeSign (r : DigitRegs) : List Line :=
  [.op .test [.reg r.number, .reg r.number],
    .op .jns [.sym ".positive"],
    .op .neg [.reg r.number],
    .op .mov [.reg r.negative, .num 1],
    .op .jmp [.sym ".convert"],
    .label ".positive",
    .op .xor [.reg r.negative, .reg r.negative]]

/-- Writes the buffer from the place to its end, then the newline. -/
def write : Target → List Line
  | .bits16 =>
    [.op .mov [.reg "ah", .hex "40"],
      .op .mov [.reg "bx", .num 1],
      .op .lea [.reg "cx", .mem (.above "print_buffer" 31)],
      .op .sub [.reg "cx", .reg "si"],
      .op .mov [.reg "dx", .reg "si"],
      .instr Target.bits16.trap,
      .op .mov [.reg "ah", .hex "40"],
      .op .mov [.reg "bx", .num 1],
      .op .mov [.reg "cx", .num 1],
      .op .mov [.reg "dx", .sym "newline"],
      .instr Target.bits16.trap]
  | .bits32 =>
    [.op .mov [.reg "eax", .num 4],
      .op .mov [.reg "ebx", .num 1],
      .op .mov [.reg "ecx", .reg "esi"],
      .op .lea [.reg "edx", .mem (.above "print_buffer" 31)],
      .op .sub [.reg "edx", .reg "esi"],
      .instr Target.bits32.trap,
      .op .mov [.reg "eax", .num 4],
      .op .mov [.reg "ebx", .num 1],
      .op .mov [.reg "ecx", .sym "newline"],
      .op .mov [.reg "edx", .num 1],
      .instr Target.bits32.trap]
  | .bits64 =>
    [.op .mov [.reg "rax", .num 1],
      .op .mov [.reg "rdi", .num 1],
      .op .lea [.reg "rdx", .mem (.above "print_buffer" 31)],
      .op .sub [.reg "rdx", .reg "rsi"],
      .instr Target.bits64.trap,
      .op .mov [.reg "rax", .num 1],
      .op .mov [.reg "rdi", .num 1],
      .op .lea [.reg "rsi", .direct "newline"],
      .op .mov [.reg "rdx", .num 1],
      .instr Target.bits64.trap]

/-- The code of `print_int`. -/
def routine (t : Target) : List Line :=
  let r := regs t
  enter t "print_int" ++ pushAll (saved t) ++
    [Line.op .mov [.reg r.number, .mem (.above t.basePointer (2 * t.wordSize))]] ++
    openBuffer r "print_buffer" ++ takeSign r ++ digitLoop r ".convert" ++
    signDigits r ".print" ++ write t ++ popAll (saved t) ++ leave t

end PrintInt

end Assembly.Routine
