import Assembly.Code.Instr
import Assembly.Proofs.Machine.Alias
import Mathlib.Algebra.GroupWithZero.Nat

/-!
# A machine that remembers where contents come from

The machine runs code and keeps, for each physical register, whether it still holds what
it held on entry.  A register that is overwritten holds something else from then on, and
gets its entry value back only from the stack.  The stack is kept in cells: words that
were pushed, and rooms that were reserved by moving the stack pointer.

A routine that is called leaves the stack and the base pointer as they were and may change
every other register.  The machine does not know which system call is made, so all of them
come back.  Code that loses track of the stack is stuck.
-/

namespace Assembly

/-- What a register or a word holds: the entry value of a register, an address on the
stack given by the bytes from there to the return address, or something else. -/
inductive Provenance
  | entry (reg : Text)
  | stack (depth : Nat)
  | other
deriving DecidableEq, Repr

inductive Cell
  | word (c : Provenance)
  | room (bytes : Nat)
deriving DecidableEq, Repr

def Cell.size (t : Target) : Cell → Nat
  | word _ => t.wordSize
  | room bytes => bytes

/-- The instructions that put a result into their first operand. -/
def Mnemonic.overwrites : Mnemonic → Bool
  | .mov | .movsx | .movsxd | .lea | .xor | .movss | .movsd | .cvtsi2ss | .cvtsi2sd
  | .cvtss2si | .cvtsd2si | .cvtss2sd | .cvtsd2ss => true
  | _ => false

/-- The registers that an instruction overwrites, by the names it uses.  A system call on
the wide target overwrites two registers by itself. -/
def Instr.written (i : Instr) : List Text :=
  match i.mnemonic, i.operands with
  | .syscall, _ => ["rcx", "r11"]
  | op, .reg d :: _ => if op.overwrites then [d] else []
  | _, _ => []

structure Machine where
  regs : Text → Provenance
  stack : List Cell

namespace Machine

/-- A routine is entered with the return address on top of the stack; cells are counted
from there. -/
def start : Machine := ⟨.entry, []⟩

def depth (t : Target) (m : Machine) : Nat := (m.stack.map (Cell.size t)).sum

def set (m : Machine) (reg : Text) (c : Provenance) : Machine :=
  { m with regs := fun r => if r = physical reg then c else m.regs r }

/-- Overwrites a register; overwriting the stack pointer loses the stack. -/
def write (t : Target) (m : Machine) (reg : Text) (c : Provenance) : Option Machine :=
  if physical reg = physical t.stackPointer then none else some (m.set reg c)

def push (m : Machine) (c : Cell) : Machine := { m with stack := c :: m.stack }

def dropCells (t : Target) (bytes : Nat) : List Cell → Option (List Cell)
  | [] => if bytes = 0 then some [] else none
  | c :: rest =>
    if bytes = 0 then some (c :: rest)
    else if c.size t ≤ bytes then dropCells t (bytes - c.size t) rest
    else none

def drop (t : Target) (m : Machine) (bytes : Nat) : Option Machine :=
  (dropCells t bytes m.stack).map fun stack => { m with stack := stack }

/-- Moves the stack pointer back to an address that a register holds. -/
def unwind (t : Target) (m : Machine) (reg : Text) : Option Machine :=
  match m.regs (physical reg) with
  | .stack k => if k ≤ m.depth t then m.drop t (m.depth t - k) else none
  | _ => none

/-- Whether a store of `bytes` at the address in a register goes into the room on top of
the stack. -/
def storesInRoom (t : Target) (m : Machine) (base : Text) (bytes : Nat) : Bool :=
  (base = t.stackPointer || m.regs (physical base) = .stack (m.depth t)) &&
    match m.stack with
    | .room n :: _ => bytes ≤ n
    | _ => false

/-- The machine after a call: of the registers only the base pointer is known. -/
def forget (t : Target) (m : Machine) : Machine :=
  { m with regs := fun r => if r = physical t.basePointer then m.regs r else .other }

def exec (t : Target) (m : Machine) (i : Instr) : Option Machine :=
  match i.mnemonic, i.operands with
  | .push, [.reg r] => some (m.push (.word (m.regs (physical r))))
  | .pop, [.reg r] =>
    match m.stack with
    | .word c :: rest => { m with stack := rest }.write t r c
    | _ => none
  | .sub, [.reg r, .num n] => if r = t.stackPointer then some (m.push (.room n.toNat)) else none
  | .add, [.reg r, .num n] => if r = t.stackPointer then m.drop t n.toNat else none
  | .call, [.sym _] => some (m.forget t)
  | .syscall, [] => some (((m.set "rax" .other).set "rcx" .other).set "r11" .other)
  | .int, [.hex _] => some (m.set t.returnReg .other)
  | .movss, [.mem (.direct base), .reg _] => if m.storesInRoom t base 4 then some m else none
  | .mov, [.reg d, .reg s] =>
    if d = t.stackPointer then m.unwind t s
    else if s = t.stackPointer then m.write t d (.stack (m.depth t))
    else m.write t d .other
  | op, .reg d :: _ => if op.overwrites then m.write t d .other else none
  | _, _ => none

/-- Runs code from the machine to the return, which must find the stack as it was on
entry.  Text that nobody can read is not run. -/
def run (t : Target) (m : Machine) : List Line → Option Machine
  | [] => none
  | .label _ :: code => m.run t code
  | .raw _ :: _ => none
  | .instr i :: code =>
    if i = ⟨.ret, []⟩ then if m.stack = [] then some m else none
    else (m.exec t i).bind fun m => m.run t code

/-! ## Code that returns the stack -/

/-- From one machine to the other the registers in `gone` were overwritten for good, and
nothing else was. -/
structure Loses (t : Target) (gone : Text → Prop) (m m' : Machine) : Prop where
  stack : m'.stack = m.stack
  kept : ∀ r, ¬ gone r → m'.regs r = m.regs r
  lost : ∀ r, gone r → ∀ s, m'.regs r ≠ .entry s
  base : gone (physical t.basePointer) → m'.regs (physical t.basePointer) = .other

/-- The instructions run from every machine, leave the stack as it was, and lose the given
registers. -/
def Executes (t : Target) (is : List Instr) (gone : Text → Prop) : Prop :=
  ∀ m, ∃ m', is.foldlM (exec t) m = some m' ∧ Loses t gone m m'

/-- The instructions run into one that no machine can run. -/
def Stuck (t : Target) (is : List Instr) : Prop :=
  ∃ before i after gone, is = before ++ i :: after ∧ Executes t before gone ∧ i ≠ ⟨.ret, []⟩ ∧
    ∀ m, exec t m i = none

variable {t : Target} {is js : List Instr} {gone gone' : Text → Prop}

namespace Executes

theorem nil (t : Target) : Executes t [] fun _ => False :=
  fun m => ⟨m, rfl, rfl, fun _ _ => rfl, fun _ h => h.elim, fun h => h.elim⟩

theorem append (h : Executes t is gone) (h' : Executes t js gone') :
    Executes t (is ++ js) fun r => gone r ∨ gone' r := by
  intro m
  obtain ⟨m₁, hrun₁, h₁⟩ := h m
  obtain ⟨m₂, hrun₂, h₂⟩ := h' m₁
  refine ⟨m₂, ?_, h₂.stack.trans h₁.stack, ?_, ?_, ?_⟩
  · rw [List.foldlM_append, hrun₁]
    exact hrun₂
  · intro r hr
    rw [h₂.kept r fun hl => hr (.inr hl), h₁.kept r fun hl => hr (.inl hl)]
  · intro r hr s
    by_cases hl : gone' r
    · exact h₂.lost r hl s
    · rw [h₂.kept r hl]
      exact h₁.lost r (hr.resolve_right hl) s
  · intro hb
    by_cases hl : gone' (physical t.basePointer)
    · exact h₂.base hl
    · rw [h₂.kept _ hl]
      exact h₁.base (hb.resolve_right hl)

theorem congr (h : Executes t is gone) (hiff : ∀ r, gone r ↔ gone' r) : Executes t is gone' := by
  intro m
  obtain ⟨m', hrun, hl⟩ := h m
  exact ⟨m', hrun, hl.stack, fun r hr => hl.kept r (mt (hiff r).mp hr),
    fun r hr => hl.lost r ((hiff r).mpr hr), fun hb => hl.base ((hiff _).mpr hb)⟩

end Executes

theorem Stuck.append_left (h : Stuck t is) (js : List Instr) : Stuck t (is ++ js) := by
  obtain ⟨before, i, after, gone, rfl, hrun, hret, hi⟩ := h
  exact ⟨before, i, after ++ js, gone, by simp, hrun, hret, hi⟩

theorem Stuck.append_right (h : Executes t is gone) (h' : Stuck t js) : Stuck t (is ++ js) := by
  obtain ⟨before, i, after, gone', rfl, hrun, hret, hi⟩ := h'
  exact ⟨is ++ before, i, after, _, by simp, h.append hrun, hret, hi⟩

/-! ## Single instructions -/

section

variable (t : Target) (m : Machine)

theorem exec_push (r : Text) :
    exec t m (.push r) = some (m.push (.word (m.regs (physical r)))) := rfl

theorem exec_sub (n : Nat) :
    exec t m ⟨.sub, [.reg t.stackPointer, .num n]⟩ = some (m.push (.room n)) := if_pos rfl

theorem exec_add (n : Nat) :
    exec t m ⟨.add, [.reg t.stackPointer, .num n]⟩ = m.drop t n := if_pos rfl

theorem exec_call (name : Text) :
    exec t m ⟨.call, [.sym name]⟩ = some (m.forget t) := rfl

theorem exec_store (base reg : Text) :
    exec t m ⟨.movss, [.direct base, .reg reg]⟩ =
      if m.storesInRoom t base 4 then some m else none := rfl

theorem exec_mov (d s : Text) :
    exec t m ⟨.mov, [.reg d, .reg s]⟩ =
      if d = t.stackPointer then m.unwind t s
      else if s = t.stackPointer then m.write t d (.stack (m.depth t))
      else m.write t d .other := rfl

end

theorem exec_overwrites {op : Mnemonic} {d : Text} (sources : List Operand) (hop : op.overwrites)
    (hd : physical d ≠ physical t.stackPointer) (m : Machine) :
    ∃ c, exec t m ⟨op, .reg d :: sources⟩ = some (m.set d c) ∧ (∀ s, c ≠ .entry s) ∧
      (op ≠ .mov → c = .other) := by
  have hne : d ≠ t.stackPointer := fun h => hd (congrArg physical h)
  have hwrite : ∀ c, m.write t d c = some (m.set d c) := fun c => if_neg hd
  cases op with
  | mov =>
    match sources with
    | [.reg s] =>
      by_cases hs : s = t.stackPointer
      · exact ⟨.stack (m.depth t), by simp [exec, hne, hs, hwrite], by simp, by simp⟩
      · exact ⟨.other, by simp [exec, hne, hs, hwrite], by simp, by simp⟩
    | [] | [.num _] | [.hex _] | [.char _] | [.sym _] | [.literal _] | [.mem _] | [.sized _ _]
    | _ :: _ :: _ =>
      exact ⟨.other, by simp [exec, hwrite, Mnemonic.overwrites], by simp, by simp⟩
  | movsx | movsxd | lea | xor | movss | movsd | cvtsi2ss | cvtsi2sd | cvtss2si | cvtsd2si
  | cvtss2sd | cvtsd2ss =>
    exact ⟨.other, by simp [exec, hwrite, Mnemonic.overwrites], by simp, by simp⟩
  | _ => cases hop

theorem regs_forget (m : Machine) (r : Text) :
    (m.forget t).regs r = if r = physical t.basePointer then m.regs r else .other := rfl

theorem regs_set (m : Machine) (reg r : Text) (c : Provenance) :
    (m.set reg c).regs r = if r = physical reg then c else m.regs r := rfl

namespace Executes

theorem overwrite {op : Mnemonic} {d : Text} (sources : List Operand) (hop : op.overwrites)
    (hsp : physical d ≠ physical t.stackPointer)
    (hbp : physical d ≠ physical t.basePointer ∨ op ≠ .mov) :
    Executes t [⟨op, .reg d :: sources⟩] (· = physical d) := by
  intro m
  obtain ⟨c, hexec, hentry, hother⟩ := exec_overwrites sources hop hsp m
  refine ⟨m.set d c, by simp [hexec], rfl, ?_, ?_, ?_⟩
  · intro r hr
    rw [regs_set, if_neg hr]
  · intro r hr s
    rw [regs_set, if_pos hr]
    exact hentry s
  · intro hb
    rw [regs_set, if_pos hb]
    exact hother (hbp.resolve_left fun hne => hne hb.symm)

/-- A register that is pushed before code and popped after it is not lost. -/
theorem bracket_one (h : Executes t is gone) {reg : Text}
    (hsp : physical reg ≠ physical t.stackPointer) :
    Executes t (Instr.push reg :: is ++ [Instr.pop reg]) fun r => gone r ∧ r ≠ physical reg := by
  intro m
  obtain ⟨m', hrun, hl⟩ := h (m.push (.word (m.regs (physical reg))))
  have hstack : m'.stack = .word (m.regs (physical reg)) :: m.stack := hl.stack
  have hpop : exec t m' (.pop reg) =
      some ({ m' with stack := m.stack }.set reg (m.regs (physical reg))) := by
    rw [exec]
    simp only [Instr.pop, hstack]
    exact if_neg hsp
  refine ⟨({ m' with stack := m.stack } : Machine).set reg (m.regs (physical reg)), ?_, rfl,
    ?_, ?_, ?_⟩
  -- The code leaves the stack as it was, so the pop finds the word of the push.
  · rw [List.cons_append, List.foldlM_cons, exec_push]
    show (is ++ [Instr.pop reg]).foldlM (exec t) (m.push _) = _
    rw [List.foldlM_append, hrun]
    show [Instr.pop reg].foldlM (exec t) m' = _
    rw [List.foldlM_cons, hpop]
    rfl
  · intro r hr
    rw [regs_set]
    split
    case isTrue heq => rw [heq]
    case isFalse hne => exact hl.kept r fun hg => hr ⟨hg, hne⟩
  · intro r hr s
    rw [regs_set, if_neg hr.2]
    exact hl.lost r hr.1 s
  · intro hb
    rw [regs_set, if_neg hb.2]
    exact hl.base hb.1

theorem bracket (h : Executes t is gone) (regs : List Text)
    (hsp : ∀ r ∈ regs, physical r ≠ physical t.stackPointer) :
    Executes t (regs.map .push ++ is ++ regs.reverse.map .pop)
      fun r => gone r ∧ ∀ s ∈ regs, r ≠ physical s := by
  -- From the inside out: the first register is pushed first and popped last.
  induction regs with
  | nil => simpa using h
  | cons reg regs ih =>
    have hinner := ih fun r hr => hsp r (List.mem_cons_of_mem _ hr)
    have houter := hinner.bracket_one (hsp reg List.mem_cons_self)
    simp only [List.map_cons, List.reverse_cons, List.map_append, List.cons_append,
      List.append_assoc, List.map_nil] at houter ⊢
    refine houter.congr fun r => ?_
    simp only [List.mem_cons, forall_eq_or_imp]
    constructor
    · rintro ⟨⟨hg, hrest⟩, hreg⟩
      exact ⟨hg, hreg, hrest⟩
    · rintro ⟨hg, hreg, hrest⟩
      exact ⟨⟨hg, hrest⟩, hreg⟩

end Executes

/-- An instruction other than a plain move that overwrites the stack pointer is stuck. -/
theorem Stuck.overwrite {op : Mnemonic} {d : Text} {sources : List Operand} (hop : op.overwrites)
    (hmov : op ≠ .mov) (hd : physical d = physical t.stackPointer) :
    Stuck t [⟨op, .reg d :: sources⟩] := by
  refine ⟨[], _, [], _, rfl, Executes.nil t, ?_, ?_⟩
  · rintro ⟨⟩
  · intro m
    have hwrite : m.write t d .other = none := if_pos hd
    cases op with
    | mov => exact absurd rfl hmov
    | movsx | movsxd | lea | xor | movss | movsd | cvtsi2ss | cvtsi2sd | cvtss2si | cvtsd2si
    | cvtss2sd | cvtsd2ss => simp [exec, hwrite, Mnemonic.overwrites]
    | _ => cases hop

/-! ## Runs to the return -/

theorem run_append {m m' : Machine} (h : is.foldlM (exec t) m = some m') (code : List Line) :
    m.run t (is.map .instr ++ code) = m'.run t code := by
  induction is generalizing m with
  | nil =>
    cases h
    rfl
  | cons i is ih =>
    rw [List.foldlM_cons] at h
    cases hexec : exec t m i with
    | none =>
      rw [hexec] at h
      cases h
    | some m₁ =>
      rw [hexec] at h
      have hret : i ≠ ⟨.ret, []⟩ := by
        rintro rfl
        cases hexec
      rw [List.map_cons, List.cons_append, run, if_neg hret, hexec]
      exact ih h

theorem Stuck.run (h : Stuck t is) (m : Machine) (code : List Line) :
    m.run t (is.map .instr ++ code) = none := by
  obtain ⟨before, i, after, gone, rfl, hrun, hret, hi⟩ := h
  obtain ⟨m', hm', -⟩ := hrun m
  rw [List.map_append, List.append_assoc, run_append hm', List.map_cons, List.cons_append,
    Machine.run, if_neg hret, hi]
  rfl

end Machine

end Assembly
