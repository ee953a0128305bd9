import Assembly.Machine.TypePolicy

/-!
# Registers

The narrower names of the general registers, and the register file that hands registers
out.

Allocation takes the first register in pool order that is not in use.  When all are in
use, a strict file refuses, and a permissive file gives the first register of the pool
again and leaves the file as it was.
-/

namespace Assembly

/-! ## Aliases -/

namespace Target

/-- For each register with narrower names: its names for one, two, four and eight bytes. -/
def aliases : Target → List (Text × List Text)
  | bits64 =>
    [("rax", ["al", "ax", "eax", "rax"]), ("rbx", ["bl", "bx", "ebx", "rbx"]),
      ("rcx", ["cl", "cx", "ecx", "rcx"]), ("rdx", ["dl", "dx", "edx", "rdx"]),
      ("r8", ["r8b", "r8w", "r8d", "r8"]), ("r9", ["r9b", "r9w", "r9d", "r9"]),
      ("r10", ["r10b", "r10w", "r10d", "r10"]), ("r11", ["r11b", "r11w", "r11d", "r11"]),
      ("r12", ["r12b", "r12w", "r12d", "r12"]), ("r13", ["r13b", "r13w", "r13d", "r13"]),
      ("r14", ["r14b", "r14w", "r14d", "r14"]), ("r15", ["r15b", "r15w", "r15d", "r15"])]
  | bits32 =>
    [("eax", ["al", "ax", "eax"]), ("ebx", ["bl", "bx", "ebx"]), ("ecx", ["cl", "cx", "ecx"]),
      ("edx", ["dl", "dx", "edx"]), ("esi", ["sil", "si", "esi"]), ("edi", ["dil", "di", "edi"])]
  | bits16 =>
    [("ax", ["al", "ax"]), ("bx", ["bl", "bx"]), ("cx", ["cl", "cx"]), ("dx", ["dl", "dx"])]

/-- The place of a size in a list of aliases. -/
def aliasPlace? : Nat → Option Nat
  | 1 => some 0
  | 2 => some 1
  | 4 => some 2
  | 8 => some 3
  | _ => none

/-- The name of the low `size` bytes of a register.  A register or size without such a
name gives the register itself. -/
def resize (t : Target) (reg : Text) (size : Nat) : Text :=
  let sized := do
    let names ← t.aliases.lookup reg
    let place ← aliasPlace? size
    names[place]?
  sized.getD reg

end Target

/-! ## The register file -/

/-- Which registers are in use, in the order they were allocated. -/
structure RegisterFile where
  target : Target
  strict : Bool
  int : List Text
  float : List Text
deriving DecidableEq, Repr

/-- A register that was handed out; it is not fresh if it was in use already. -/
structure Allocation where
  reg : Text
  fresh : Bool
deriving DecidableEq, Repr

namespace RegisterFile

/-- A file with no register in use. -/
def new (target : Target) (strict : Bool) : RegisterFile := ⟨target, strict, [], []⟩

/-- The registers of a class, in allocation order. -/
def pool (f : RegisterFile) : RegClass → List Text
  | .int => f.target.intPool
  | .float => f.target.floatPool

/-- The registers of a class in use. -/
def inUse (f : RegisterFile) : RegClass → List Text
  | .int => f.int
  | .float => f.float

def setInUse (f : RegisterFile) (c : RegClass) (regs : List Text) : RegisterFile :=
  match c with
  | .int => { f with int := regs }
  | .float => { f with float := regs }

def uses (f : RegisterFile) (c : RegClass) (reg : Text) : Bool := (f.inUse c).contains reg

/-- The first register of the pool that is not in use. -/
def firstFree? (f : RegisterFile) (c : RegClass) : Option Text :=
  (f.pool c).find? fun r => !f.uses c r

/-- Hands out a register; `none` if a strict file has none left. -/
def alloc? (f : RegisterFile) (c : RegClass) : Option (Allocation × RegisterFile) :=
  match f.firstFree? c with
  | some r => some (⟨r, true⟩, f.setInUse c (f.inUse c ++ [r]))
  | none =>
    if f.strict then none
    else (f.pool c).head?.map fun r => (⟨r, false⟩, f)

/-- Takes a register back. -/
def free (f : RegisterFile) (c : RegClass) (reg : Text) : RegisterFile :=
  f.setInUse c ((f.inUse c).filter (· != reg))

/-- Takes all registers back. -/
def reset (f : RegisterFile) : RegisterFile := { f with int := [], float := [] }

@[simp] theorem inUse_setInUse (f : RegisterFile) (c : RegClass) (regs : List Text) :
    (f.setInUse c regs).inUse c = regs := by
  cases c <;> rfl

theorem inUse_setInUse_of_ne (f : RegisterFile) {c d : RegClass} (regs : List Text)
    (h : d ≠ c) : (f.setInUse c regs).inUse d = f.inUse d := by
  cases c <;> cases d <;> simp_all [setInUse, inUse]

@[simp] theorem pool_setInUse (f : RegisterFile) (c d : RegClass) (regs : List Text) :
    (f.setInUse c regs).pool d = f.pool d := by
  cases c <;> cases d <;> rfl

end RegisterFile

end Assembly
