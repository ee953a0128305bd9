import Mathlib.Logic.Relation
import Assembly.Numeral
import Assembly.Proofs.Machine.Cpu
import Assembly.Proofs.Machine.Region

/-!
# Processes

A machine that runs whole routines: registers and memory, flags, jumps, and the system call that
writes.  A process also knows the bytes that it has written out and the addresses that it has
stored to.

Floating-point numbers are not followed.  What depends on them, or on the system, comes out of a
stream of answers that the process has from the start; whatever holds for every stream holds
whatever they are.  An instruction without a meaning here has no successor, and neither has a
division whose quotient does not fit, a jump on a flag that is not defined, and a return.
-/

namespace Assembly

/-- The flags that jumps ask for; `none` is a flag that the last instruction left undefined. -/
structure StatusFlags where
  zero : Option Bool
  sign : Option Bool
  carry : Option Bool

namespace StatusFlags

def undefined : StatusFlags := ⟨none, none, none⟩

/-- The flags of a result. -/
def ofResult {n : Nat} (x : BitVec n) (carry : Option Bool) : StatusFlags :=
  ⟨some (x = 0), some x.msb, carry⟩

end StatusFlags

structure Process (t : Target) where
  cpu : Cpu t
  flags : StatusFlags
  output : Text
  /-- The addresses of the bytes that were stored, the last first. -/
  stores : List t.Word
  /-- Answers of the system and of the floating-point unit, still to come. -/
  answers : Nat → BitVec 64

/-! ## The system call that writes -/

namespace Target

/-- The number of the system call, and where it stands. -/
def writeNumber : Target → Nat
  | bits16 => 0x40
  | bits32 => 4
  | bits64 => 1

def writeNumberPart (t : Target) : Part := if t = bits16 then ⟨1, 1⟩ else ⟨0, t.wordSize⟩

/-- The register with the file to write to, which is 1 for the output. -/
def writeFile : Target → Text
  | bits16 | bits32 => "rbx"
  | bits64 => "rdi"

/-- The register with the address of the bytes. -/
def writeStart : Target → Text
  | bits16 => "rdx"
  | bits32 => "rcx"
  | bits64 => "rsi"

/-- The register with the number of bytes. -/
def writeLength : Target → Text
  | bits16 => "rcx"
  | bits32 | bits64 => "rdx"

/-- The registers that the system overwrites: that of the result, and on the widest target those
where the processor keeps the way back. -/
def trapClobbers : Target → List Text
  | bits16 | bits32 => ["rax"]
  | bits64 => ["rax", "rcx", "r11"]

end Target

namespace Process

variable {t : Target}

/-! ## Changes -/

section

variable (p : Process t)

def reg (name : Text) : t.Word := p.cpu.reg name

def sp : t.Word := p.cpu.sp

def mem : Memory (8 * t.wordSize) := p.cpu.mem

def set (name : Text) (x : t.Word) : Process t := { p with cpu := p.cpu.set name x }

def put (name : Text) (part : Part) (x : BitVec (8 * part.size)) : Process t :=
  { p with cpu := p.cpu.put name part x }

def withFlags (f : StatusFlags) : Process t := { p with flags := f }

/-- Puts a number into memory. -/
def store (a : t.Word) (n : Nat) (x : BitVec (8 * n)) : Process t :=
  { p with
    cpu := { p.cpu with mem := p.cpu.mem.write a n x }
    stores := (List.range n).map (a + BitVec.ofNat _ ·) ++ p.stores }

def write (bytes : Text) : Process t := { p with output := p.output ++ bytes }

/-- The next answer. -/
def answer (n : Nat) : BitVec n := (p.answers 0).setWidth n

def next : Process t := { p with answers := fun k => p.answers (k + 1) }

def push (x : t.Word) : Process t :=
  let top := p.sp - BitVec.ofNat _ t.wordSize
  (p.set t.stackPointer top).store top t.wordSize x

/-- The word on top of the stack, taken off. -/
def drop : Process t := p.set t.stackPointer (p.sp + BitVec.ofNat _ t.wordSize)

def top : t.Word := p.mem.read p.sp t.wordSize

end

/-! ## Instructions -/

section

variable (env : Text → t.Word) (p : Process t)

/-- The `n` bytes of an operand.  Characters and numbers in base sixteen are constants. -/
def value? (n : Nat) : Operand → Option (BitVec (8 * n))
  | .char c => some (BitVec.ofNat _ c.toNat)
  | .hex digits => some (BitVec.ofNat _ (Numeral.magnitude 16 digits))
  | o => p.cpu.value? env n o

def storeAt (a : Address) (n : Nat) (x : BitVec (8 * n)) : Option (Process t) :=
  (p.cpu.address? env a).map fun b => p.store b n x

/-- Stores an answer. -/
def storeAnswer (a : Address) (n : Nat) : Option (Process t) :=
  (p.next.storeAt env a n (p.answer _))

def putAnswer (d : Text) : Option (Process t) :=
  (t.view? d).map fun part => p.next.put d part (p.answer _)

def mov : List Operand → Option (Process t)
  | [.reg d, s] => (t.view? d).bind fun part => (p.value? env part.size s).map (p.put d part)
  | [.mem a, .reg r] => (t.view? r).bind fun part =>
    (p.value? env part.size (.reg r)).bind (p.storeAt env a part.size)
  | [.sized n (.mem a), s] => (p.value? env n.bytes s).bind (p.storeAt env a n.bytes)
  | _ => none

def lea : List Operand → Option (Process t)
  | [.reg d, .mem a] =>
    if t.view? d = some ⟨0, t.wordSize⟩ then (p.cpu.address? env a).map (p.set d) else none
  | _ => none

def pushOf : List Operand → Option (Process t)
  | [.reg r] => (p.value? env t.wordSize (.reg r)).map p.push
  | _ => none

def popTo : List Operand → Option (Process t)
  | [.reg r] => if t.view? r = some ⟨0, t.wordSize⟩ then some (p.drop.set r p.top) else none
  | _ => none

/-- An operation on a register and another operand. -/
def combine (f : {n : Nat} → BitVec n → BitVec n → BitVec n)
    (carry : {n : Nat} → BitVec n → BitVec n → Bool) : List Operand → Option (Process t)
  | [.reg d, s] => do
    let part ← t.view? d
    let x ← p.value? env part.size (.reg d)
    let y ← p.value? env part.size s
    return (p.put d part (f x y)).withFlags (.ofResult (f x y) (some (carry x y)))
  | _ => none

/-- An operation on a register alone. -/
def modify (f : {n : Nat} → BitVec n → BitVec n)
    (carry : {n : Nat} → BitVec n → Option Bool) : List Operand → Option (Process t)
  | [.reg d] => do
    let part ← t.view? d
    let x ← p.value? env part.size (.reg d)
    return (p.put d part (f x)).withFlags (.ofResult (f x) (carry x))
  | _ => none

def test : List Operand → Option (Process t)
  | [.reg d, s] => do
    let part ← t.view? d
    let x ← p.value? env part.size (.reg d)
    let y ← p.value? env part.size s
    return p.withFlags (.ofResult (x &&& y) (some false))
  | _ => none

/-- Divides the number in a pair of registers, without sign. -/
def divide : List Operand → Option (Process t)
  | [.reg d] => do
    let y ← p.value? env t.wordSize (.reg d)
    let x := (p.reg "rdx").toNat * 2 ^ (8 * t.wordSize) + (p.reg "rax").toNat
    if y = 0 ∨ 2 ^ (8 * t.wordSize) ≤ x / y.toNat then none
    else return ((p.set "rax" (BitVec.ofNat _ (x / y.toNat))).set "rdx"
      (BitVec.ofNat _ (x % y.toNat))).withFlags .undefined
  | _ => none

/-- Gives answers to registers. -/
def clobber (regs : List Text) : Process t :=
  regs.foldl (fun p r => p.next.set r (p.answer _)) p

/-- The system call writes the bytes that it is given. -/
def trap : Option (Process t) :=
  if (p.reg "rax").extractLsb' (8 * t.writeNumberPart.start) (8 * t.writeNumberPart.size) =
      BitVec.ofNat _ t.writeNumber ∧ p.reg t.writeFile = 1 then
    let bytes := p.mem.text (p.reg t.writeStart) (p.reg t.writeLength).toNat
    some (((p.write bytes).clobber t.trapClobbers).withFlags .undefined)
  else none

/-- What floating-point instructions do to the rest of the process. -/
def float (i : Instr) : Option (Process t) :=
  match i.mnemonic, i.operands with
  | .movss, [.mem a, .reg _] => p.storeAnswer env a 4
  | .movsd, [.mem a, .reg _] => p.storeAnswer env a 8
  | .fistp, [.sized n (.mem a)] => p.storeAnswer env a n.bytes
  | .fnstcw, [.mem a] => p.storeAnswer env a 2
  | .cvttsd2si, [.reg d, .reg _] => p.putAnswer d
  | .fnstsw, [.reg d] => p.putAnswer d
  | .ucomisd, [.reg _, .reg _] =>
    some (p.next.withFlags ⟨some (p.answer 8).msb, some false, some (p.answer 1 = 1)⟩)
  | .sahf, [] =>
    let status := (p.reg "rax").extractLsb' 8 8
    some (p.withFlags ⟨some (status.getLsbD 6), some (status.getLsbD 7), some (status.getLsbD 0)⟩)
  | .movss, [.reg _, _] | .movsd, [.reg _, _] | .subsd, [.reg _, _] | .mulsd, [.reg _, _]
  | .xorpd, [.reg _, _] | .pxor, [.reg _, _] | .cvtsi2sd, [.reg _, _] | .cvtss2sd, [.reg _, _]
  | .cvtsd2ss, [.reg _, _] => some p
  | .fld, [_] | .fild, [_] | .fimul, [_] | .fldcw, [_] | .fstp, [.reg _] | .fsubp, [_, _]
  | .fabs, [] | .ftst, [] => some p
  | _, _ => none

/-- What an instruction does that is neither a jump nor a call. -/
def exec (i : Instr) : Option (Process t) :=
  match i.mnemonic with
  | .mov => p.mov env i.operands
  | .movsx | .movsxd => (p.cpu.exec env i).map fun c => { p with cpu := c }
  | .lea => p.lea env i.operands
  | .push => p.pushOf env i.operands
  | .pop => p.popTo i.operands
  | .add => p.combine env (· + ·) (fun {n} x y => 2 ^ n ≤ x.toNat + y.toNat) i.operands
  | .sub => p.combine env (· - ·) (fun x y => x.toNat < y.toNat) i.operands
  | .xor => p.combine env (· ^^^ ·) (fun _ _ => false) i.operands
  | .or => p.combine env (· ||| ·) (fun _ _ => false) i.operands
  | .inc => p.modify env (· + 1) (fun _ => p.flags.carry) i.operands
  | .dec => p.modify env (· - 1) (fun _ => p.flags.carry) i.operands
  | .neg => p.modify env (- ·) (fun x => some (x ≠ 0)) i.operands
  | .test => p.test env i.operands
  | .div => p.divide env i.operands
  | .syscall | .int => if i = t.trap then p.trap else none
  | _ => p.float env i

end

/-! ## Code with labels -/

/-- The code behind a label. -/
def seek (code : List Line) (label : Text) : Option (List Line) :=
  match code with
  | [] => none
  | l :: rest => if l = .label label then some rest else seek rest label

section

variable (env : Text → t.Word) (code : List Line)

/-- Goes on behind a label, or with the next line. -/
def branch (rest : List Line) (p : Process t) (taken : Option Bool) :
    List Operand → Option (List Line × Process t)
  | [.sym label] => taken.bind fun b => if b then (seek code label).map (·, p) else some (rest, p)
  | _ => none

/-- One line of the code: the lines that are still to come, and the process. -/
def step : List Line × Process t → Option (List Line × Process t)
  | (.label _ :: rest, p) => some (rest, p)
  | (.instr i :: rest, p) =>
    match i.mnemonic with
    | .jmp => branch code rest p (some true) i.operands
    | .jz => branch code rest p p.flags.zero i.operands
    | .jnz => branch code rest p (p.flags.zero.map not) i.operands
    | .jns => branch code rest p (p.flags.sign.map not) i.operands
    | .jae => branch code rest p (p.flags.carry.map not) i.operands
    | .loop =>
      let count := p.reg "rcx" - 1
      branch code rest (p.set "rcx" count) (some (count ≠ 0)) i.operands
    | _ => (p.exec env i).map (rest, ·)
  | _ => none

/-- The code leads from one place and process to another. -/
def Reaches : List Line × Process t → List Line × Process t → Prop :=
  Relation.ReflTransGen fun s s' => step env code s = some s'

/-- The code runs from its first line to a return. -/
def Returns (p q : Process t) : Prop :=
  ∃ rest, Reaches env code (code, p) (Line.op .ret [] :: rest, q)

end

end Process

end Assembly
