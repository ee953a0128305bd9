import Assembly.Code.Instr
import Assembly.Text.Blank
import Assembly.Text.Quoted

/-!
# Targets

A target is a word width.  Everything that differs between widths is a function of it:
the register pools in allocation order, the registers with a role, the trap instruction,
the object format and the file extensions.
-/

namespace Assembly

/-- The file format asked of the assembler. -/
inductive ObjectFormat
  | elf64 | elf32 | bin
deriving DecidableEq, Repr

namespace ObjectFormat

def text : ObjectFormat → Text
  | elf64 => "elf64"
  | elf32 => "elf32"
  | bin => "bin"

/-- The format with a number, counted from zero. -/
def ofNat? : Nat → Option ObjectFormat
  | 0 => some elf64
  | 1 => some elf32
  | 2 => some bin
  | _ => none

/-- The name of a format given by number; numbers without a format are unknown. -/
def nameOf (n : Int) : Text :=
  match n with
  | .ofNat k => ((ofNat? k).map text).getD "unknown"
  | .negSucc _ => "unknown"

end ObjectFormat

/-- The machine words code is emitted for. -/
inductive Target
  | bits16 | bits32 | bits64
deriving DecidableEq, Repr

namespace Target

def bits : Target → Nat
  | bits16 => 16
  | bits32 => 32
  | bits64 => 64

/-- The size of a word in bytes, which is also the size of a stack argument. -/
def wordSize : Target → Nat
  | bits16 => 2
  | bits32 => 4
  | bits64 => 8

def name (t : Target) : Text := "bits_" ++ Text.ofNat t.bits

def objectFormat : Target → ObjectFormat
  | bits16 => .bin
  | bits32 => .elf32
  | bits64 => .elf64

/-! ## Registers -/

/-- The integer registers, in allocation order. -/
def intPool : Target → List Text
  | bits16 => ["bx", "cx", "dx"]
  | bits32 => ["ebx", "ecx", "edx", "esi", "edi"]
  | bits64 => ["rbx", "r12", "r13", "r14", "r15", "r10", "r11", "r8", "r9", "rcx", "rdx"]

/-- The floating-point registers, in allocation order. -/
def floatPool (_ : Target) : List Text :=
  ["xmm0", "xmm1", "xmm2", "xmm3", "xmm4", "xmm5", "xmm6", "xmm7"]

def stackPointer : Target → Text
  | bits16 => "sp"
  | bits32 => "esp"
  | bits64 => "rsp"

def basePointer : Target → Text
  | bits16 => "bp"
  | bits32 => "ebp"
  | bits64 => "rbp"

/-- Where a function leaves an integer result. -/
def returnReg : Target → Text
  | bits16 => "ax"
  | bits32 => "eax"
  | bits64 => "rax"

/-- Where a function leaves a floating-point result. -/
def floatReturnReg : Target → Text
  | bits16 => "st0"
  | bits32 => "xmm0"
  | bits64 => "xmm0"

/-- The instruction that enters the operating system. -/
def trap : Target → Instr
  | bits16 => ⟨.int, [.hex "21"]⟩
  | bits32 => ⟨.int, [.hex "80"]⟩
  | bits64 => ⟨.syscall, []⟩

/-- The symbol where a program starts. -/
def entryPoint (_ : Target) : Text := "_start"

/-! ## Artifacts -/

def asmExtension (_ : Target) : Text := ".asm"

/-- A flat binary is the final artifact, so its object file has the extension of the
program. -/
def objectExtension (t : Target) : Text := if t.objectFormat = .bin then ".com" else ".o"

def programExtension (t : Target) : Text := if t.objectFormat = .bin then ".com" else ""

/-- Whether the assembler's output still has to be linked. -/
def needsLink (t : Target) : Bool := t.objectFormat ≠ .bin

def is64Bit (t : Target) : Bool := t = bits64

/-! ## Names -/

/-- A character in lower case, as far as the lower case is ASCII.  Beside the ASCII
capitals these are the dotted capital I and the Kelvin sign. -/
def lowerCode (code : Nat) : Nat :=
  if 65 ≤ code ∧ code ≤ 90 then code + 32
  else if code = 0x130 then 105
  else if code = 0x212A then 107
  else code

/-- The text in lower case; enough to compare it with ASCII names. -/
def lowerName (t : Text) : Text := (Text.runes t).flatMap fun c => Rune.encode (lowerCode c.code)

/-- The spellings of each width, in lower case. -/
def spellings : Target → List Text
  | bits16 => ["bits_16", "16", "8086"]
  | bits32 => ["bits_32", "32", "386", "x86", "i386"]
  | bits64 => ["bits_64", "64", "amd64", "x86_64"]

/-- The target with a name.  Case and blanks around the name do not matter. -/
def ofName? (name : Text) : Option Target :=
  [bits64, bits32, bits16].find? fun t => t.spellings.contains (lowerName (Text.trim name))

/-- Why a width name is refused. -/
def unsupported (name : Text) : Text := "unsupported word width: " ++ Text.quote name

end Target

end Assembly
