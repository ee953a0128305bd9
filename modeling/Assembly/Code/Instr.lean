import Assembly.Text

/-!
# Instructions and lines

Code is emitted as data and written out at the end.  An instruction is a mnemonic and a
list of operands; an operand says what it is (a register, a number, an address), so that
code can be given a meaning without reading text back.

A line of a code segment is a label, an instruction, or raw text that a caller supplied
and that is passed through untouched.
-/

namespace Assembly

/-- The instructions this library emits. -/
inductive Mnemonic
  | mov | movsx | movsxd | lea | push | pop | call | ret
  | add | sub | inc | dec | neg | xor | or | test | div
  | jmp | jz | jnz | jns | jae | loop | syscall | int
  | movss | movsd | subsd | mulsd | xorpd | pxor | ucomisd
  | cvtsi2ss | cvtsi2sd | cvtss2si | cvtsd2si | cvttsd2si | cvtss2sd | cvtsd2ss
  | fld | fild | fistp | fstp | fsubp | fimul | fabs | ftst
  | fnstcw | fldcw | fnstsw | sahf
deriving DecidableEq, Repr

def Mnemonic.text : Mnemonic → Text
  | .mov => "mov" | .movsx => "movsx" | .movsxd => "movsxd" | .lea => "lea"
  | .push => "push" | .pop => "pop" | .call => "call" | .ret => "ret"
  | .add => "add" | .sub => "sub" | .inc => "inc" | .dec => "dec"
  | .neg => "neg" | .xor => "xor" | .or => "or" | .test => "test" | .div => "div"
  | .jmp => "jmp" | .jz => "jz" | .jnz => "jnz" | .jns => "jns" | .jae => "jae"
  | .loop => "loop" | .syscall => "syscall" | .int => "int"
  | .movss => "movss" | .movsd => "movsd" | .subsd => "subsd" | .mulsd => "mulsd"
  | .xorpd => "xorpd" | .pxor => "pxor" | .ucomisd => "ucomisd"
  | .cvtsi2ss => "cvtsi2ss" | .cvtsi2sd => "cvtsi2sd" | .cvtss2si => "cvtss2si"
  | .cvtsd2si => "cvtsd2si" | .cvttsd2si => "cvttsd2si" | .cvtss2sd => "cvtss2sd"
  | .cvtsd2ss => "cvtsd2ss"
  | .fld => "fld" | .fild => "fild" | .fistp => "fistp" | .fstp => "fstp"
  | .fsubp => "fsubp" | .fimul => "fimul" | .fabs => "fabs" | .ftst => "ftst"
  | .fnstcw => "fnstcw" | .fldcw => "fldcw" | .fnstsw => "fnstsw" | .sahf => "sahf"

/-! ## Operands -/

/-- The widths a memory operand can be marked with. -/
inductive OperandSize
  | byte | word | dword | qword
deriving DecidableEq, Repr

namespace OperandSize

def bytes : OperandSize → Nat
  | byte => 1
  | word => 2
  | dword => 4
  | qword => 8

def text : OperandSize → Text
  | byte => "byte"
  | word => "word"
  | dword => "dword"
  | qword => "qword"

end OperandSize

/-- A memory address: a symbol or register by itself, or a displacement above or below
one. -/
inductive Address
  | direct (name : Text)
  | above (base : Text) (displacement : Nat)
  | below (base : Text) (displacement : Int)
deriving DecidableEq, Repr

def Address.text : Address → Text
  | direct name => "[" ++ name ++ "]"
  | above base n => "[" ++ base ++ "+" ++ Text.ofNat n ++ "]"
  | below base n => "[" ++ base ++ "-" ++ Text.ofInt n ++ "]"

/-- An instruction operand.  `literal` is a number or other text kept as it was spelled. -/
inductive Operand
  | reg (name : Text)
  | num (n : Int)
  | hex (digits : Text)
  | char (c : UInt8)
  | sym (name : Text)
  | literal (spelling : Text)
  | mem (address : Address)
  | sized (size : OperandSize) (operand : Operand)
deriving DecidableEq, Repr

namespace Operand

def text : Operand → Text
  | reg name => name
  | num n => Text.ofInt n
  | hex digits => "0x" ++ digits
  | char c => [39, c, 39]
  | sym name => name
  | literal spelling => spelling
  | mem a => a.text
  | sized size o => size.text ++ " " ++ o.text

/-- The memory operand at a symbol or at the address in a register. -/
def direct (name : Text) : Operand := .mem (.direct name)

end Operand

/-! ## Instructions and lines -/

structure Instr where
  mnemonic : Mnemonic
  operands : List Operand
deriving DecidableEq, Repr

/-- The mnemonic, then the operands with commas between them. -/
def Instr.text (i : Instr) : Text :=
  if i.operands.isEmpty then i.mnemonic.text
  else i.mnemonic.text ++ " " ++ Text.join ", " (i.operands.map (·.text))

namespace Instr

def push (reg : Text) : Instr := ⟨.push, [.reg reg]⟩

def pop (reg : Text) : Instr := ⟨.pop, [.reg reg]⟩

end Instr

/-- One line of a code segment. -/
inductive Line
  | label (name : Text)
  | instr (i : Instr)
  | raw (t : Text)
deriving DecidableEq, Repr

namespace Line

/-- Instructions are indented by four spaces, labels end in a colon. -/
def text : Line → Text
  | label name => name ++ ":"
  | instr i => "    " ++ i.text
  | raw t => t

/-- A line with one instruction. -/
def op (mnemonic : Mnemonic) (operands : List Operand) : Line := .instr ⟨mnemonic, operands⟩

end Line

end Assembly
