import Assembly.Engine.Call
import Assembly.Proofs.Machine.Memory
import Assembly.Proofs.Machine.Width

/-!
# A machine with words

What instructions that move, extend and push integers do to registers and memory.  A register
is known by its widest name and holds one word of the target; a narrower name is a part of it, if
the target has the name.  An instruction that has no such meaning has none at all, so code that runs
is in the domain.
-/

namespace Assembly

/-- The numbers that a full register can hold. -/
abbrev Target.Word (t : Target) := BitVec (8 * t.wordSize)

/-- The part of a word that a name stands for by its width.  There is none for more than a word. -/
def Target.span? (t : Target) (name : Text) : Option Part :=
  (part? name).filter fun p => p.size ≤ t.wordSize

/-- The part of a word that a name stands for, if the target has the name. -/
def Target.view? (t : Target) (name : Text) : Option Part :=
  if t.owns name then t.span? name else none

namespace Target

/-- The registers of the pool whose lowest byte has no name. -/
def byteless : Target → List Text
  | bits32 => ["esi", "edi"]
  | _ => []

variable (t : Target)

theorem view?_intPool {r : Text} (hr : r ∈ t.intPool) : t.view? r = some ⟨0, t.wordSize⟩ := by
  have hall : ∀ r ∈ t.intPool, t.view? r = some ⟨0, t.wordSize⟩ := by
    cases t <;> decide
  exact hall r hr

theorem view?_stackPointer : t.view? t.stackPointer = some ⟨0, t.wordSize⟩ := by
  cases t <;> decide

theorem view?_basePointer : t.view? t.basePointer = some ⟨0, t.wordSize⟩ := by
  cases t <;> decide

theorem span?_resize {r : Text} (hr : r ∈ t.intPool) {size : Nat}
    (hsize : size = 1 ∨ size = 2 ∨ size = 4 ∨ size = 8) (hle : size ≤ t.wordSize) :
    t.span? (t.resize r size) = some ⟨0, size⟩ := by
  rw [span?, t.part?_resize hr hsize hle, Option.filter_some_pos]
  exact decide_eq_true hle

/-- The target has the name, unless it is that of a byte of a register that has none. -/
theorem owns_resize {r : Text} (hr : r ∈ t.intPool) {size : Nat}
    (hsize : size = 1 ∨ size = 2 ∨ size = 4 ∨ size = 8) (hle : size ≤ t.wordSize) :
    t.owns (t.resize r size) = true ↔ ¬ (size = 1 ∧ r ∈ t.byteless) := by
  have hall : ∀ r ∈ t.intPool, ∀ n ∈ [1, 2, 4, 8], n ≤ t.wordSize →
      (t.owns (t.resize r n) = true ↔ ¬ (n = 1 ∧ r ∈ t.byteless)) := by
    cases t <;> decide
  exact hall r hr size (by simpa using hsize) hle

theorem view?_resize {r : Text} (hr : r ∈ t.intPool) {size : Nat}
    (hsize : size = 1 ∨ size = 2 ∨ size = 4 ∨ size = 8) (hle : size ≤ t.wordSize)
    (hnamed : ¬ (size = 1 ∧ r ∈ t.byteless)) : t.view? (t.resize r size) = some ⟨0, size⟩ := by
  rw [view?, if_pos ((t.owns_resize hr hsize hle).mpr hnamed), t.span?_resize hr hsize hle]

theorem view?_resize_one {r : Text} (hr : r ∈ t.byteless) : t.view? (t.resize r 1) = none := by
  have hall : ∀ r ∈ t.byteless, t.view? (t.resize r 1) = none := by
    cases t <;> decide
  exact hall r hr

end Target

/-- A word with a part replaced.  Four bytes are never a proper part: they clear what is above. -/
def Part.replace {n : Nat} (p : Part) (old : BitVec n) (x : BitVec (8 * p.size)) : BitVec n :=
  if p.size = 4 then x.setWidth n
  else
    let mask : BitVec n := (BitVec.allOnes (8 * p.size)).setWidth n <<< (8 * p.start)
    (old &&& ~~~mask) ||| (x.setWidth n <<< (8 * p.start))

/-- The width of an operand that says how wide it is. -/
def Operand.bytes? (t : Target) : Operand → Option Nat
  | reg r => (t.span? r).map (·.size)
  | sized s _ => some s.bytes
  | _ => none

/-- The words in the registers, and the memory. -/
structure Cpu (t : Target) where
  regs : Text → t.Word
  mem : Memory (8 * t.wordSize)

namespace Cpu

variable {t : Target}

/-! ## Registers and the stack -/

/-- The word in the register that a name belongs to. -/
def reg (c : Cpu t) (name : Text) : t.Word := c.regs (physical name)

def set (c : Cpu t) (name : Text) (x : t.Word) : Cpu t :=
  { c with regs := fun r => if r = physical name then x else c.regs r }

def put (c : Cpu t) (name : Text) (p : Part) (x : BitVec (8 * p.size)) : Cpu t :=
  c.set name (p.replace (c.reg name) x)

def sp (c : Cpu t) : t.Word := c.reg t.stackPointer

/-- The stack grows down. -/
def push (c : Cpu t) (x : t.Word) : Cpu t :=
  let top := c.sp - BitVec.ofNat _ t.wordSize
  { c.set t.stackPointer top with mem := c.mem.write top t.wordSize x }

/-- The word at a place above the stack pointer. -/
def slot (c : Cpu t) (i : Nat) : t.Word :=
  c.mem.read (c.sp + BitVec.ofNat _ (i * t.wordSize)) t.wordSize

/-! ## Operands -/

section Operands

variable (env : Text → t.Word) (c : Cpu t)

/-- The word that an address starts from: a full register, or where a symbol is. -/
def base? (name : Text) : Option t.Word :=
  if part? name = none then some (env name)
  else if t.view? name = some ⟨0, t.wordSize⟩ then some (c.reg name)
  else none

def address? : Address → Option t.Word
  | .direct b => c.base? env b
  | .above b n => (c.base? env b).map (· + BitVec.ofNat _ n)
  | .below b n => (c.base? env b).map (· - BitVec.ofInt _ n)

/-- The `n` bytes of an operand. -/
def value? (n : Nat) : Operand → Option (BitVec (8 * n))
  | .reg r => (t.view? r).bind fun p =>
    if p.size = n then some ((c.reg r).extractLsb' (8 * p.start) (8 * n)) else none
  | .num k => some (BitVec.ofInt _ k)
  | .literal spelling => (Text.toInt64? spelling).map (BitVec.ofInt _)
  | .sym name => some ((env name).setWidth _)
  | .mem a => (c.address? env a).map (c.mem.read · n)
  | .sized s o => if s.bytes = n then value? n o else none
  | _ => none

/-! ## Instructions -/

/-- Extends the sign of an operand to a wider register. -/
def extend (d : Text) (s : Operand) (fits : Nat → Nat → Bool) : Option (Cpu t) := do
  let p ← t.view? d
  let n ← s.bytes? t
  if fits n p.size then (c.value? env n s).map fun x => c.put d p (x.signExtend _) else none

def combine (d : Text) (s : Operand) (f : {n : Nat} → BitVec n → BitVec n → BitVec n) :
    Option (Cpu t) := do
  let p ← t.view? d
  let x ← c.value? env p.size (.reg d)
  let y ← c.value? env p.size s
  return c.put d p (f x y)

def exec (i : Instr) : Option (Cpu t) :=
  match i.mnemonic, i.operands with
  | .mov, [.reg d, s] => (t.view? d).bind fun p => (c.value? env p.size s).map (c.put d p)
  | .movsx, [.reg d, s] => c.extend env d s fun n m => n ≤ 2 ∧ n < m
  | .movsxd, [.reg d, s] => c.extend env d s fun n m => n = 4 ∧ m = 8
  | .push, [.reg r] => (c.value? env t.wordSize (.reg r)).map c.push
  | .add, [.reg d, s] => c.combine env d s fun x y => x + y
  | .sub, [.reg d, s] => c.combine env d s fun x y => x - y
  | _, _ => none

def run (is : List Instr) : Option (Cpu t) := is.foldlM (exec env) c

end Operands

/-! ## Signs -/

theorem setWidth_signExtend {n m : Nat} (y : BitVec n) (h : n ≤ m) :
    (y.signExtend m).setWidth n = y := by
  refine BitVec.eq_of_getLsbD_eq fun j hj => ?_
  have hjm : j < m := by omega
  rw [BitVec.getLsbD_setWidth, BitVec.getLsbD_signExtend]
  simp [hj, hjm]

/-- A number in the signed range of some bits is the same with more bits. -/
theorem signExtend_ofInt {n m : Nat} (h : n ≤ m) (hn : 0 < n) {k : Int} (hlo : -(2 ^ (n - 1)) ≤ k)
    (hhi : k < 2 ^ (n - 1)) : (BitVec.ofInt n k).signExtend m = BitVec.ofInt m k := by
  have hpow : (2 : Int) ^ (n - 1) ≤ 2 ^ (m - 1) := by
    exact_mod_cast Nat.pow_le_pow_right (by decide) (by omega)
  refine BitVec.eq_of_toInt_eq ?_
  rw [BitVec.toInt_signExtend_of_le h, BitVec.toInt_ofInt_eq_self hn hlo hhi,
    BitVec.toInt_ofInt_eq_self (by omega) (by omega) (by omega)]

/-! ## What code does -/

variable {env : Text → t.Word} {c d : Cpu t} {name : Text} {r : Text} {x : t.Word} {s : Operand}
  {n : Nat}

@[simp] theorem mem_set (c : Cpu t) (r : Text) (x : t.Word) : (c.set r x).mem = c.mem := rfl

@[simp] theorem reg_set_self (c : Cpu t) (r : Text) (x : t.Word) : (c.set r x).reg r = x :=
  if_pos rfl

theorem reg_set_of_ne (c : Cpu t) (x : t.Word) (h : physical name ≠ physical r) :
    (c.set r x).reg name = c.reg name :=
  if_neg h

theorem regs_set_of_ne (c : Cpu t) (x : t.Word) (h : name ≠ physical r) :
    (c.set r x).regs name = c.regs name :=
  if_neg h

theorem set_self (c : Cpu t) (r : Text) : c.set r (c.reg r) = c := by
  have hregs : (c.set r (c.reg r)).regs = c.regs := by
    funext q
    by_cases h : q = physical r
    · rw [h]
      exact reg_set_self c r _
    · exact if_neg h
  cases c
  exact congrArg (Cpu.mk · _) hregs

theorem sp_set_of_ne (c : Cpu t) (x : t.Word) (h : physical r ≠ physical t.stackPointer) :
    (c.set r x).sp = c.sp :=
  reg_set_of_ne c x h.symm

theorem sp_push (c : Cpu t) (x : t.Word) :
    (c.push x).sp = c.sp - BitVec.ofNat _ t.wordSize :=
  reg_set_self ..

theorem regs_push_of_ne (c : Cpu t) (x : t.Word) (h : name ≠ physical t.stackPointer) :
    (c.push x).regs name = c.regs name :=
  if_neg h

theorem slot_push_zero (c : Cpu t) (x : t.Word) : (c.push x).slot 0 = x := by
  have hroom : t.wordSize ≤ 2 ^ (8 * t.wordSize) := by
    cases t <;> decide
  rw [slot, sp_push, Nat.zero_mul, BitVec.add_zero]
  exact Memory.read_write _ _ hroom x

/-- Pushing moves every word one place up, as long as the stack does not wrap around. -/
theorem slot_push_succ (c : Cpu t) (x : t.Word) {i : Nat}
    (hroom : (i + 2) * t.wordSize ≤ 2 ^ (8 * t.wordSize)) :
    (c.push x).slot (i + 1) = c.slot i := by
  have hnext : (i + 1) * t.wordSize = i * t.wordSize + t.wordSize := Nat.succ_mul ..
  have hlast : (i + 2) * t.wordSize = (i + 1) * t.wordSize + t.wordSize := Nat.succ_mul ..
  have haddr : c.sp - BitVec.ofNat (8 * t.wordSize) t.wordSize +
      BitVec.ofNat _ ((i + 1) * t.wordSize) = c.sp + BitVec.ofNat _ (i * t.wordSize) := by
    rw [hnext, BitVec.ofNat_add]
    exact sub_add_add_cancel ..
  have hkept := Memory.read_write_of_le c.mem (c.sp - BitVec.ofNat _ t.wordSize)
    (k := t.wordSize) (x := x) (o := (i + 1) * t.wordSize) (by omega) (by omega)
  rw [haddr] at hkept
  rw [slot, sp_push, haddr]
  exact hkept

theorem replace_full (old x : t.Word) : Part.replace ⟨0, t.wordSize⟩ old x = x := by
  rw [Part.replace]
  split
  · exact BitVec.setWidth_eq x
  · simp

theorem put_full (c : Cpu t) (r : Text) (x : t.Word) : c.put r ⟨0, t.wordSize⟩ x = c.set r x := by
  rw [put, replace_full]

theorem value?_reg {p : Part} (h : t.view? r = some p) :
    c.value? env p.size (.reg r) = some ((c.reg r).extractLsb' (8 * p.start) (8 * p.size)) := by
  rw [value?, h, Option.bind_some, if_pos rfl]

theorem value?_full (h : t.view? r = some ⟨0, t.wordSize⟩) :
    c.value? env t.wordSize (.reg r) = some (c.reg r) := by
  rw [value?_reg (p := ⟨0, t.wordSize⟩) h]
  simp

theorem base?_full (env : Text → t.Word) (c : Cpu t) (h : t.view? r = some ⟨0, t.wordSize⟩) :
    c.base? env r = some (c.reg r) := by
  have hname : part? r ≠ none := by
    intro hnone
    rw [Target.view?, Target.span?, hnone] at h
    split at h <;> cases h
  rw [base?, if_neg hname, if_pos h]

theorem base?_symbol (env : Text → t.Word) (c : Cpu t) (h : part? name = none) :
    c.base? env name = some (env name) :=
  if_pos h

theorem exec_mov (hr : t.view? r = some ⟨0, t.wordSize⟩)
    (hx : c.value? env t.wordSize s = some x) :
    c.exec env ⟨.mov, [.reg r, s]⟩ = some (c.set r x) := by
  simp only [exec, hr, Option.bind_some, hx, Option.map_some, put_full]

theorem exec_push (hr : t.view? r = some ⟨0, t.wordSize⟩) :
    c.exec env (.push r) = some (c.push (c.reg r)) := by
  simp only [exec, Instr.push, value?_full hr, Option.map_some]

theorem combine_stackPointer (k : Nat)
    (f : {n : Nat} → BitVec n → BitVec n → BitVec n) :
    c.combine env t.stackPointer (.num k) f =
      some (c.set t.stackPointer (f c.sp (BitVec.ofNat _ k))) := by
  have hk : c.value? env t.wordSize (.num k) = some (BitVec.ofNat _ k) := by
    rw [value?, BitVec.ofInt_natCast]
  simp only [combine, t.view?_stackPointer, Option.bind_eq_bind, Option.bind_some,
    value?_full t.view?_stackPointer, hk, put_full]
  rfl

/-- The sign extension that a target has for a size gives the full width of the register. -/
theorem exec_signExtend {y : BitVec (8 * n)} (hr : t.view? r = some ⟨0, t.wordSize⟩)
    (hn : s.bytes? t = some n) (hsize : n = 1 ∨ n = 2 ∨ n = 4 ∨ n = 8) (hlt : n < t.wordSize)
    (hy : c.value? env n s = some y) :
    c.exec env ⟨t.signExtend n, [.reg r, s]⟩ = some (c.set r (y.signExtend _)) := by
  have hextend : ∀ fits : Nat → Nat → Bool, fits n t.wordSize = true →
      c.extend env r s fits = some (c.set r (y.signExtend _)) := by
    intro fits hfits
    simp only [extend, hr, hn, Option.bind_eq_bind, Option.bind_some, hfits, if_true, hy,
      Option.map_some, put_full]
  rw [Target.signExtend]
  split
  case isTrue h =>
    have hword : t.wordSize = 8 := by
      cases t with
      | bits16 | bits32 => cases h.2
      | bits64 => rfl
    exact hextend (fun n m => n = 4 ∧ m = 8) (by simp [h.1, hword])
  case isFalse h =>
    -- Four bytes are narrower than a word only where the other instruction is chosen.
    have hnarrow : n ≤ 2 := by
      cases t with
      | bits16 | bits32 =>
        simp only [Target.wordSize] at hlt
        omega
      | bits64 =>
        have hne : n ≠ 4 := fun h4 => h ⟨h4, rfl⟩
        simp only [Target.wordSize] at hlt
        omega
    exact hextend (fun n m => n ≤ 2 ∧ n < m) (by simp [hnarrow, hlt])

theorem run_cons (i : Instr) (is : List Instr) :
    c.run env (i :: is) = (c.exec env i).bind fun d => d.run env is :=
  List.foldlM_cons ..

theorem run_append (is js : List Instr) :
    c.run env (is ++ js) = (c.run env is).bind fun d => d.run env js :=
  List.foldlM_append ..

theorem run_singleton (i : Instr) : c.run env [i] = c.exec env i := by
  rw [run_cons]
  exact Option.bind_fun_some _

end Cpu

end Assembly
