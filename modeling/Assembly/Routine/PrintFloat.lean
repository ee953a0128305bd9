import Assembly.Routine.PrintInt

/-!
# The routine that prints a floating-point number

`print_float` takes a single-precision number in the first stack argument and writes it
with six fractional digits and a newline.  The digits of the integer part end just before
the middle of `float_buf`; the point overwrites the cleared byte there, and the fraction
follows it upwards, so that what is written is contiguous.

The two wider targets compute with the vector unit.  The narrow one uses the floating-point
stack, with its rounding set to truncation; it keeps the two control words, a scratch word
and a digit in four words below the base pointer.
-/

namespace Assembly.Routine.PrintFloat

def regs : Target → DigitRegs
  | .bits16 => ⟨"ax", "si", "bx", "di", "dx"⟩
  | .bits32 => ⟨"eax", "esi", "ebx", "edi", "edx"⟩
  | .bits64 => ⟨"rax", "rsi", "rbx", "r14", "rdx"⟩

/-- The registers the routine gives back as it found them. -/
def saved : Target → List Text
  | .bits16 => ["bx", "si", "di"]
  | .bits32 => ["ebx", "esi", "edi"]
  | .bits64 => ["rbx", "r12", "r13", "r14", "r15"]

/-- The four words below the base pointer, on the narrow target. -/
def savedControl : Operand := .mem (.below "bp" 2)
def truncControl : Operand := .mem (.below "bp" 4)
def scratch : Operand := .mem (.below "bp" 6)
def digit : Operand := .mem (.below "bp" 8)

/-! ## The parts of the number -/

/-- Loads the argument, notes its sign, and splits it: the integer part goes to the number
register, the fraction stays in the floating-point unit. -/
def splitNumber : Target → List Line
  | .bits16 =>
    [.op .fnstcw [savedControl],
      .op .mov [.reg "ax", savedControl],
      .op .or [.reg "ax", .hex "0C00"],
      .op .mov [truncControl, .reg "ax"],
      .op .fldcw [truncControl],
      .op .fld [.sized .dword (.mem (.above "bp" 4))],
      .op .ftst [],
      .op .fnstsw [.reg "ax"],
      .op .sahf [],
      .op .jae [.sym ".positive_float"],
      .op .mov [.reg "di", .num 1],
      .op .fabs [],
      .op .jmp [.sym ".extract_int"],
      .label ".positive_float",
      .op .xor [.reg "di", .reg "di"],
      .label ".extract_int",
      .op .fld [.reg "st0"],
      .op .fistp [.sized .word scratch],
      .op .fild [.sized .word scratch],
      .op .fsubp [.reg "st1", .reg "st0"],
      .op .mov [.reg "ax", scratch]]
  | t =>
    let r := regs t
    [.op .movss [.reg "xmm0", .mem (.above t.basePointer (2 * t.wordSize))],
      .op .cvtss2sd [.reg "xmm0", .reg "xmm0"],
      .op .pxor [.reg "xmm1", .reg "xmm1"],
      .op .ucomisd [.reg "xmm0", .reg "xmm1"],
      .op .jae [.sym ".positive_float"],
      .op .mov [.reg r.negative, .num 1],
      .op .movsd [.reg "xmm1", .reg "xmm0"],
      .op .xorpd [.reg "xmm0", .reg "xmm0"],
      .op .subsd [.reg "xmm0", .reg "xmm1"],
      .op .jmp [.sym ".extract_int"],
      .label ".positive_float",
      .op .xor [.reg r.negative, .reg r.negative],
      .label ".extract_int",
      .op .cvttsd2si [.reg r.number, .reg "xmm0"],
      .op .cvtsi2sd [.reg "xmm1", .reg r.number],
      .op .subsd [.reg "xmm0", .reg "xmm1"]]

/-- Keeps the place of the first character for the system call. -/
def keepStart : Target → List Line
  | .bits16 => [.op .mov [.reg "di", .reg "si"]]
  | .bits32 => [.op .push [.reg "esi"]]
  | .bits64 => [.op .mov [.reg "r14", .reg "rsi"]]

/-- The point, in the middle of the buffer. -/
def writePoint (r : DigitRegs) : List Line :=
  [.op .lea [.reg r.place, .mem (.above "float_buf" 31)],
    .op .mov [.sized .byte (.direct r.place), .char 46],
    .op .inc [.reg r.place]]

/-- Six times: the fraction times ten, its integer part as a digit. -/
def fractionLoop : Target → List Line
  | .bits16 =>
    [.op .mov [.reg "cx", .num 6],
      .label ".frac_loop",
      .op .mov [.sized .word scratch, .num 10],
      .op .fimul [.sized .word scratch],
      .op .fld [.reg "st0"],
      .op .fistp [.sized .word digit],
      .op .fild [.sized .word digit],
      .op .fsubp [.reg "st1", .reg "st0"],
      .op .mov [.reg "ax", digit],
      .op .add [.reg "al", .char 48],
      .op .mov [.direct "si", .reg "al"],
      .op .inc [.reg "si"],
      .op .loop [.sym ".frac_loop"]]
  | .bits32 =>
    [.op .mov [.reg "ecx", .num 6],
      .label ".frac_loop",
      .op .push [.reg "ecx"],
      .op .mov [.reg "ecx", .num 10],
      .op .cvtsi2sd [.reg "xmm2", .reg "ecx"],
      .op .mulsd [.reg "xmm0", .reg "xmm2"],
      .op .cvttsd2si [.reg "ecx", .reg "xmm0"],
      .op .push [.reg "ecx"],
      .op .cvtsi2sd [.reg "xmm1", .reg "ecx"],
      .op .subsd [.reg "xmm0", .reg "xmm1"],
      .op .pop [.reg "ecx"],
      .op .add [.reg "cl", .char 48],
      .op .mov [.direct "esi", .reg "cl"],
      .op .inc [.reg "esi"],
      .op .pop [.reg "ecx"],
      .op .loop [.sym ".frac_loop"]]
  | .bits64 =>
    [.op .mov [.reg "rcx", .num 6],
      .label ".frac_loop",
      .op .mov [.reg "r15", .num 10],
      .op .cvtsi2sd [.reg "xmm2", .reg "r15"],
      .op .mulsd [.reg "xmm0", .reg "xmm2"],
      .op .cvttsd2si [.reg "r12", .reg "xmm0"],
      .op .cvtsi2sd [.reg "xmm1", .reg "r12"],
      .op .subsd [.reg "xmm0", .reg "xmm1"],
      .op .add [.reg "r12", .char 48],
      .op .mov [.direct "rsi", .reg "r12b"],
      .op .inc [.reg "rsi"],
      .op .loop [.sym ".frac_loop"]]

def writeNewline (r : DigitRegs) : List Line :=
  [.op .mov [.sized .byte (.direct r.place), .num 10], .op .inc [.reg r.place]]

/-- Writes the buffer from the first character up to the place. -/
def write : Target → List Line
  | .bits16 =>
    [.op .fstp [.reg "st0"],
      .op .mov [.reg "ah", .hex "40"],
      .op .mov [.reg "bx", .num 1],
      .op .mov [.reg "cx", .reg "si"],
      .op .sub [.reg "cx", .reg "di"],
      .op .mov [.reg "dx", .reg "di"],
      .instr Target.bits16.trap,
      .op .fldcw [savedControl]]
  | .bits32 =>
    [.op .mov [.reg "eax", .num 4],
      .op .mov [.reg "ebx", .num 1],
      .op .pop [.reg "ecx"],
      .op .mov [.reg "edx", .reg "esi"],
      .op .sub [.reg "edx", .reg "ecx"],
      .instr Target.bits32.trap]
  | .bits64 =>
    [.op .mov [.reg "rax", .num 1],
      .op .mov [.reg "rdi", .num 1],
      .op .mov [.reg "rdx", .reg "rsi"],
      .op .sub [.reg "rdx", .reg "r14"],
      .op .mov [.reg "rsi", .reg "r14"],
      .instr Target.bits64.trap]

/-! ## The routine -/

/-- Room for the four words of the narrow target. -/
def reserve : Target → List Line
  | .bits16 => [.op .sub [.reg "sp", .num 8]]
  | _ => []

/-- The code of `print_float`. -/
def routine (t : Target) : List Line :=
  let r := regs t
  enter t "print_float" ++ reserve t ++ pushAll (saved t) ++ splitNumber t ++
    openBuffer r "float_buf" ++ digitLoop r ".int_loop" ++ signDigits r ".write_point" ++
    keepStart t ++ writePoint r ++ fractionLoop t ++ writeNewline r ++ write t ++
    popAll (saved t) ++ leave t

end Assembly.Routine.PrintFloat
