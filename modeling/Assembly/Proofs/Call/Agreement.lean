import Assembly.Proofs.Call.Arguments
import Assembly.Proofs.Engine.Mode
import Assembly.Proofs.Frame.Restoration
import Assembly.Proofs.Machine.Cpu

/-!
# Caller and callee

The caller pushes its integer arguments from right to left, each through code of its own kind,
and the callee finds its parameters by their distance from the base pointer.  Run on a machine
the two agree: what the callee loads is what the caller passed.  Only a byte in a register whose
lowest byte has no name cannot be passed.

One argument after the other is pushed, so the proof keeps an invariant, `Pushed`, of the
arguments that are on the stack already.  Code of an argument may change the register of the
argument itself, by extending its sign in place, and a register that is not in use; neither
changes the low bytes of any argument that is still to come.
-/

namespace Assembly

open Emit

/-! ## Arguments on a machine -/

def Value.place (v : Value) : Address :=
  if v.kind = .slot then .below v.base v.offset else .direct v.name

/-- A byte in a register whose lowest byte has no name. -/
def Value.Nameless (t : Target) (v : Value) : Prop :=
  v.isRegister = true ∧ v.name ∈ t.byteless ∧ t.typeSize v.type = 1

instance (t : Target) (v : Value) : Decidable (v.Nameless t) :=
  inferInstanceAs (Decidable (_ ∧ _ ∧ _))

namespace Value.Nameless

variable {t : Target} {v : Value}

theorem lt_wordSize (h : v.Nameless t) : t.typeSize v.type < t.wordSize := by
  rw [h.2.2]
  cases t <;> decide

theorem not_isFloat (h : v.Nameless t) : v.isFloat = false := by
  by_contra hfloat
  have hsize := t.typeSize_of_isFloat (by simpa [isFloat] using hfloat)
  rw [h.2.2] at hsize
  omega

end Value.Nameless

namespace Cpu

variable {t : Target}

section

variable (env : Text → t.Word) (c : Cpu t)

/-- The low bytes of a value, as many as its type has: of a register, of the memory at its place,
or of a number. -/
def low? (v : Value) : Option (BitVec (8 * t.typeSize v.type)) :=
  if v.isRegister then some ((c.reg v.name).setWidth _)
  else if v.isMemory then (c.address? env v.place).map (c.mem.read · _)
  else if v.kind = .number then (Text.toInt64? v.text).map (BitVec.ofInt _)
  else none

/-- The value as a word: its low bytes with their sign. -/
def word? (v : Value) : Option t.Word := (c.low? env v).map (·.signExtend _)

/-- A register that passing the arguments leaves alone.  Of the pool it is in use, so that it is no
scratch register, and if an argument is in it, there is no sign to extend. -/
def Steady (t : Target) (f : RegisterFile) (args : List Value) (name : Text) : Prop :=
  name ≠ physical t.stackPointer ∧ ∀ r ∈ t.intPool, name = physical r → r ∈ f.inUse .int ∧
    ∀ w ∈ args, w.isRegister = true → w.name = r → t.typeSize w.type = t.wordSize

/-- An argument that can be passed beside others: a register in use, a number in the range of its
type, or memory that the pushes do not overwrite, at an address that they do not change. -/
inductive Passable (f : RegisterFile) (args : List Value) (v : Value) : Prop
  | register (hkind : v.isRegister = true) (hpool : v.name ∈ t.intPool)
    (huse : v.name ∈ f.inUse .int)
  | number {x : Int} (hkind : v.kind = .number) (hx : Text.toInt64? v.text = some x)
    (hlo : -(2 ^ (8 * t.typeSize v.type - 1)) ≤ x) (hhi : x < 2 ^ (8 * t.typeSize v.type - 1))
  | memory {a : t.Word} (hkind : v.isMemory = true) (ha : c.address? env v.place = some a)
    (hbase : Steady t f args (physical v.place.base))
    (hapart : ∀ k < t.typeSize v.type,
      ¬ Below c.sp (args.length * t.wordSize) (a + BitVec.ofNat _ k))

/-- A machine from which integer arguments can be passed.  Two arguments in one register have one
type, and the stack has room for the arguments, the return address and a base pointer. -/
structure Ready (f : RegisterFile) (args : List Value) : Prop where
  int : ∀ v ∈ args, v.isFloat = false
  fits : ∀ v ∈ args, t.typeSize v.type ≤ t.wordSize
  passable : ∀ v ∈ args, c.Passable env f args v
  shared : ∀ v ∈ args, ∀ w ∈ args, v.isRegister = true → w.isRegister = true →
    v.name = w.name → v.type = w.type
  room : (args.length + 2) * t.wordSize ≤ 2 ^ (8 * t.wordSize)

/-- The last of the arguments, `done`, are on the stack. -/
structure Pushed (f : RegisterFile) (args done : List Value) (d : Cpu t) : Prop where
  sp : d.sp = c.sp - BitVec.ofNat _ (done.length * t.wordSize)
  slots : ∀ i v, done[i]? = some v → c.word? env v = some (d.slot i)
  mem : ∀ b, ¬ Below c.sp (done.length * t.wordSize) b → d.mem b = c.mem b
  regs : ∀ name, Steady t f args name → d.regs name = c.regs name
  low : ∀ v ∈ args, v.isRegister = true → d.low? env v = c.low? env v

end

variable {env : Text → t.Word} {c d : Cpu t} {f : RegisterFile} {args done : List Value}
  {v : Value} {r : Text} {x : t.Word} {is : List Instr}

/-! ## Words -/

theorem low?_register (h : v.isRegister = true) :
    c.low? env v = some ((c.reg v.name).setWidth _) :=
  if_pos h

theorem not_isRegister_of_isMemory (h : v.isMemory = true) : ¬ v.isRegister = true := by
  intro hreg
  simp only [Value.isRegister, decide_eq_true_eq] at hreg
  simp [Value.isMemory, hreg] at h

theorem kind_ne_number_of_isRegister (h : v.isRegister = true) : v.kind ≠ .number := by
  intro hnumber
  simp [Value.isRegister, hnumber] at h

theorem kind_ne_number_of_isMemory (h : v.isMemory = true) : v.kind ≠ .number := by
  intro hnumber
  simp [Value.isMemory, hnumber] at h

theorem low?_memory (h : v.isMemory = true) {a : t.Word} (ha : c.address? env v.place = some a) :
    c.low? env v = some (c.mem.read a _) := by
  rw [low?, if_neg (not_isRegister_of_isMemory h), if_pos h, ha, Option.map_some]

theorem low?_number (h : v.kind = .number) {n : Int} (hn : Text.toInt64? v.text = some n) :
    c.low? env v = some (BitVec.ofInt _ n) := by
  have hreg : ¬ v.isRegister = true := by simp [Value.isRegister, h]
  have hmem : ¬ v.isMemory = true := by simp [Value.isMemory, h]
  rw [low?, if_neg hreg, if_neg hmem, if_pos h, hn, Option.map_some]

namespace Passable

theorem exists_low? (h : c.Passable env f args v) : ∃ y, c.low? env v = some y := by
  cases h with
  | register hkind => exact ⟨_, low?_register hkind⟩
  | number hkind hx => exact ⟨_, low?_number hkind hx⟩
  | memory hkind ha => exact ⟨_, low?_memory hkind ha⟩

theorem mem_of_isRegister (h : c.Passable env f args v) (hreg : v.isRegister = true) :
    v.name ∈ t.intPool ∧ v.name ∈ f.inUse .int := by
  cases h with
  | register _ hpool huse => exact ⟨hpool, huse⟩
  | number hkind => exact absurd hkind (kind_ne_number_of_isRegister hreg)
  | memory hkind => exact absurd hreg (not_isRegister_of_isMemory hkind)

theorem kind_ne_string (h : c.Passable env f args v) : v.kind ≠ .string := by
  intro hkind
  cases h with
  | register hreg => simp [Value.isRegister, hkind] at hreg
  | number hnumber => rw [hkind] at hnumber; cases hnumber
  | memory hmem => simp [Value.isMemory, hkind] at hmem

end Passable

/-! ## The code of one argument -/

theorem operand_of_isMemory (h : v.isMemory = true) : v.operand = .mem v.place := by
  simp only [Value.isMemory, Bool.or_eq_true, decide_eq_true_eq] at h
  rcases h with (h | h) | h <;> simp [Value.operand, Value.place, Operand.direct, h]

/-- A load takes the value with its sign into the full width of a register. -/
theorem exec_intLoad {y : BitVec (8 * t.typeSize v.type)} (hr : r ∈ t.intPool)
    (hle : t.typeSize v.type ≤ t.wordSize) (hp : c.Passable env f args v)
    (hreg : v.isRegister = false) (hy : d.low? env v = some y) :
    d.exec env (t.intLoad r v (t.typeOrWord v.type)) = some (d.set r (y.signExtend _)) := by
  have hfull := t.view?_intPool hr
  have hsize := t.typeSize_cases v.type
  simp only [Target.intLoad, t.typeSize_typeOrWord]
  cases hp with
  | register hkind => rw [hreg] at hkind; cases hkind
  | number hkind hx hlo hhi =>
    rw [low?_number hkind hx, Option.some.injEq] at hy
    rw [if_pos hkind, ← hy, signExtend_ofInt (by omega) (by omega) hlo hhi]
    refine exec_mov hfull ?_
    rw [value?, hx, Option.map_some]
  | memory hkind =>
    rw [low?, if_neg (by simp [hreg]), if_pos hkind, Option.map_eq_some_iff] at hy
    obtain ⟨a, ha, rfl⟩ := hy
    have hvalue : ∀ k, d.value? env k v.operand = some (d.mem.read a k) := by
      intro k
      rw [operand_of_isMemory hkind, value?, ha, Option.map_some]
    rw [if_neg (kind_ne_number_of_isMemory hkind)]
    by_cases hlt : t.typeSize v.type < t.wordSize
    · have hbytes := t.bytes_operandSize hsize
      rw [if_pos ⟨hkind, hlt⟩]
      refine exec_signExtend hfull (by rw [Target.sizedOperand, Operand.bytes?, hbytes]) hsize hlt ?_
      rw [Target.sizedOperand, value?, if_pos hbytes, hvalue]
    · have heq : t.typeSize v.type = t.wordSize := by omega
      rw [if_neg (fun h => hlt h.2), heq, t.resize_wordSize hr, BitVec.signExtend_eq]
      exact exec_mov hfull (hvalue _)

theorem run_widening (hr : v.name ∈ t.intPool) (hle : t.typeSize v.type ≤ t.wordSize)
    (hnamed : ¬ (t.typeSize v.type = 1 ∧ v.name ∈ t.byteless)) :
    d.run env (t.widening v) = some (d.set v.name
      (((d.reg v.name).setWidth (8 * t.typeSize v.type)).signExtend _)) := by
  have hsize := t.typeSize_cases v.type
  simp only [Target.widening]
  by_cases hlt : t.typeSize v.type < t.wordSize
  · have hspan := t.span?_resize hr hsize hle
    have hvalue : d.value? env _ _ = _ := value?_reg (t.view?_resize hr hsize hle hnamed)
    rw [if_pos hlt, run_singleton]
    refine exec_signExtend (t.view?_intPool hr) (by rw [Operand.bytes?, hspan]; rfl) hsize hlt ?_
    rw [hvalue, BitVec.setWidth_eq_extractLsb' (by omega), reg, t.physical_resize]
    rfl
  · have heq : t.typeSize v.type = t.wordSize := by omega
    rw [if_neg hlt, heq, BitVec.setWidth_eq, BitVec.signExtend_eq, set_self]
    rfl

theorem value?_nameless (hr : r ∈ t.byteless) (n : Nat) :
    d.value? env n (.reg (t.resize r 1)) = none := by
  rw [value?, t.view?_resize_one hr, Option.bind_none]

/-- There is no instruction that extends the sign of a byte without a name. -/
theorem exec_signExtend_nameless {a : Text} {n : Nat} (hr : r ∈ t.byteless) :
    d.exec env ⟨t.signExtend n, [.reg a, .reg (t.resize r 1)]⟩ = none := by
  have hextend : ∀ fits, d.extend env a (.reg (t.resize r 1)) fits = none := by
    intro fits
    simp only [extend, value?_nameless hr, Option.map_none, ite_self, Option.bind_eq_bind]
    rw [Option.bind_eq_none_iff]
    exact fun _ _ => Option.bind_eq_none_iff.mpr fun _ _ => rfl
  rw [Target.signExtend]
  split
  · exact hextend fun n m => n = 4 ∧ m = 8
  · exact hextend fun n m => n ≤ 2 ∧ n < m

theorem run_widening_nameless (h : v.Nameless t) : d.run env (t.widening v) = none := by
  simp only [Target.widening]
  rw [if_pos h.lt_wordSize, run_singleton, h.2.2, exec_signExtend_nameless h.2.1]

theorem run_push {i : List Instr} (hr : r ∈ t.intPool) (hi : d.run env i = some (d.set r x)) :
    d.run env (i ++ [Instr.push r]) = some ((d.set r x).push x) := by
  rw [run_append, hi, Option.bind_some, run_singleton, exec_push (t.view?_intPool hr), reg_set_self]

/-- Code of an argument pushes its word.  On the way it leaves the word in the register of the
argument itself, or in one that is not in use. -/
theorem run_argCode {y : BitVec (8 * t.typeSize v.type)} (hcode : ArgCode t f v is)
    (hf : f.target = t) (hs : f.strict = true) (hint : v.isFloat = false)
    (hle : t.typeSize v.type ≤ t.wordSize) (hp : c.Passable env f args v) (hnamed : ¬ v.Nameless t)
    (hy : d.low? env v = some y) :
    ∃ r ∈ t.intPool, (v.isRegister = true ∧ v.name = r ∨ r ∉ f.inUse .int) ∧
      d.run env is = some ((d.set r (y.signExtend _)).push (y.signExtend _)) := by
  have hspare : ∀ {tmp}, f.Spare tmp → tmp ∈ t.intPool := fun h => hf ▸ h.pool
  cases hcode with
  | float _ hfloat => rw [hint] at hfloat; cases hfloat
  | register hreg _ =>
    have hpool := (hp.mem_of_isRegister hreg).1
    have hbyte : ¬ (t.typeSize v.type = 1 ∧ v.name ∈ t.byteless) :=
      fun h => hnamed ⟨hreg, h.2, h.1⟩
    rw [low?_register hreg, Option.some.injEq] at hy
    subst hy
    exact ⟨v.name, hpool, .inl ⟨hreg, rfl⟩, run_push hpool (run_widening hpool hle hbyte)⟩
  | label _ hkind _ => exact absurd hkind hp.kind_ne_string
  | @loaded tmp w hreg _ hw htmp =>
    have hload := exec_intLoad (hspare htmp) hle hp hreg hy
    rw [← run_singleton] at hload
    rw [hw hint]
    exact ⟨tmp, hspare htmp, .inr (htmp.free hs), run_push (hspare htmp) hload⟩

/-- Code of an argument that is a byte without a name does not run. -/
theorem run_argCode_nameless (hcode : ArgCode t f v is) (hint : v.isFloat = false)
    (h : v.Nameless t) : d.run env is = none := by
  cases hcode with
  | float _ hfloat => rw [hint] at hfloat; cases hfloat
  | register => rw [run_append, run_widening_nameless h, Option.bind_none]
  | label _ hkind => exact absurd h.1 (by simp [Value.isRegister, hkind])
  | loaded hreg => rw [h.1] at hreg; cases hreg

/-! ## All arguments -/

theorem Pushed.nil (c : Cpu t) (f : RegisterFile) (args : List Value) : c.Pushed env f args [] c where
  sp := by simp
  slots i v hv := nomatch hv
  mem b _ := rfl
  regs name _ := rfl
  low v _ _ := rfl

theorem address?_congr {a : Address}
    (h : d.regs (physical a.base) = c.regs (physical a.base)) :
    d.address? env a = c.address? env a := by
  have hbase : d.base? env a.base = c.base? env a.base := by
    rw [base?, base?, reg, reg, h]
  cases a <;> simp only [address?, Address.base] at hbase ⊢ <;> rw [hbase]

namespace Pushed

theorem low?_eq (h : c.Pushed env f args done d) (hlen : done.length ≤ args.length) (hv : v ∈ args)
    (hp : c.Passable env f args v) : d.low? env v = c.low? env v := by
  cases hp with
  | register hreg _ _ => exact h.low v hv hreg
  | number hkind hx _ _ => rw [low?_number hkind hx, low?_number hkind hx]
  | @memory a hkind ha hbase hapart =>
    have haddr : d.address? env v.place = some a :=
      (address?_congr (h.regs _ hbase)).trans ha
    have hroom : done.length * t.wordSize ≤ args.length * t.wordSize := Nat.mul_le_mul_right _ hlen
    have hread : d.mem.read a (t.typeSize v.type) = c.mem.read a (t.typeSize v.type) :=
      Memory.read_congr fun k hk => h.mem _ fun hb => hapart k hk (hb.mono hroom)
    rw [low?_memory hkind haddr, low?_memory hkind ha, hread]

/-- One more word on the stack.  The register that carried the word there has the low bytes of the
arguments in it as before, and it is as before altogether if it has to be. -/
theorem push (h : c.Pushed env f args done d)
    (hroom : (done.length + 1) * t.wordSize ≤ 2 ^ (8 * t.wordSize)) (hr : r ∈ t.intPool)
    (hpool : ∀ w ∈ args, w.isRegister = true → w.name ∈ t.intPool)
    (hlow : ∀ w ∈ args, w.isRegister = true → w.name = r →
      x.setWidth (8 * t.typeSize w.type) = (c.reg r).setWidth _)
    (hsteady : Steady t f args (physical r) → x = c.reg r)
    (hx : c.word? env v = some x) :
    c.Pushed env f args (v :: done) ((d.set r x).push x) := by
  have hsp : (d.set r x).sp = d.sp := sp_set_of_ne d x (t.physical_intPool r hr).1
  have hlen : (v :: done).length * t.wordSize = done.length * t.wordSize + t.wordSize :=
    Nat.succ_mul ..
  have htop : d.sp - BitVec.ofNat _ t.wordSize =
      c.sp - BitVec.ofNat _ (done.length * t.wordSize + t.wordSize) := by
    rw [h.sp, BitVec.ofNat_add, ← sub_sub]
  refine ⟨?_, fun i w hw => ?_, fun b hb => ?_, fun name hname => ?_, fun w hw hreg => ?_⟩
  · rw [sp_push, hsp, htop, hlen]
  · cases i with
    | zero =>
      rw [List.getElem?_cons_zero, Option.some.injEq] at hw
      rw [← hw, slot_push_zero, hx]
    | succ i =>
      rw [List.getElem?_cons_succ] at hw
      have hi : i < done.length := (List.getElem?_eq_some_iff.mp hw).1
      have hbound : (i + 2) * t.wordSize ≤ (done.length + 1) * t.wordSize :=
        Nat.mul_le_mul_right _ (by omega)
      have hslot : (d.set r x).slot i = d.slot i := by rw [slot, slot, hsp, mem_set]
      rw [slot_push_succ _ _ (by omega), hslot]
      exact h.slots i w hw
  · -- The new word is the last of the bytes that may have changed.
    rw [hlen] at hb
    have hout : ¬ (b - (d.sp - BitVec.ofNat _ t.wordSize)).toNat < t.wordSize := by
      rw [htop]
      exact fun hlt => hb (.of_toNat_lt hlt)
    have hwrite : ((d.set r x).push x).mem b = d.mem b := by
      rw [Cpu.push, hsp]
      exact if_neg hout
    rw [hwrite]
    exact h.mem b fun hbelow => hb (hbelow.mono (by omega))
  · rw [regs_push_of_ne _ _ hname.1]
    by_cases heq : name = physical r
    · subst heq
      exact (reg_set_self ..).trans (hsteady hname)
    · rw [regs_set_of_ne d x heq]
      exact h.regs name hname
  · have hname := hpool w hw hreg
    have hkeep : ((d.set r x).push x).reg w.name = (d.set r x).reg w.name :=
      regs_push_of_ne _ _ (t.physical_intPool _ hname).1
    rw [low?_register hreg, hkeep, ← h.low w hw hreg, low?_register hreg]
    by_cases heq : w.name = r
    · have hc := h.low w hw hreg
      rw [low?_register hreg, low?_register hreg, Option.some.injEq, heq] at hc
      rw [heq, reg_set_self, hlow w hw hreg heq, hc]
    · rw [reg_set_of_ne d x fun hp => heq (t.physical_injOn _ hname _ hr hp)]

end Pushed

/-- The step of the invariant: the code of the next argument. -/
theorem Pushed.run_argCode (h : c.Pushed env f args done d) (hready : c.Ready env f args)
    (hf : f.target = t) (hs : f.strict = true) (hlen : done.length < args.length) (hv : v ∈ args)
    (hnamed : ¬ v.Nameless t) (hcode : ArgCode t f v is) :
    ∃ d', d.run env is = some d' ∧ c.Pushed env f args (v :: done) d' := by
  have hp := hready.passable v hv
  have hle := hready.fits v hv
  obtain ⟨y, hy⟩ := hp.exists_low?
  have hroom : (done.length + 1) * t.wordSize ≤ (args.length + 2) * t.wordSize :=
    Nat.mul_le_mul_right _ (by omega)
  have hregister : ∀ w ∈ args, w.isRegister = true →
      w.name ∈ t.intPool ∧ w.name ∈ f.inUse .int :=
    fun w hw => (hready.passable w hw).mem_of_isRegister
  obtain ⟨r, hr, hown, hrun⟩ := Cpu.run_argCode hcode hf hs (hready.int v hv) hle hp hnamed
    ((h.low?_eq hlen.le hv hp).trans hy)
  refine ⟨_, hrun, h.push (hroom.trans hready.room) hr (fun w hw hreg => (hregister w hw hreg).1)
    (fun w hw hreg hname => ?_) (fun hsteady => ?_) (by rw [word?, hy, Option.map_some])⟩
  · rcases hown with ⟨hvreg, rfl⟩ | hfree
    · -- The register of the argument itself: arguments that share it have its type.
      have htype : v.type = w.type := hready.shared v hv w hw hvreg hreg hname.symm
      rw [low?_register hvreg, Option.some.injEq] at hy
      rw [← htype, setWidth_signExtend y (by omega), ← hy]
    · exact absurd (hname ▸ (hregister w hw hreg).2) hfree
  · -- A full word has no sign to extend, so that the register gets what it had.
    obtain ⟨huse, hfull⟩ := hsteady.2 r hr rfl
    rcases hown with ⟨hvreg, rfl⟩ | hfree
    · rw [low?_register hvreg, Option.some.injEq] at hy
      rw [← hy, hfull v hv hvreg rfl, BitVec.setWidth_eq, BitVec.signExtend_eq]
    · exact absurd huse hfree

/-- The code of the last arguments leaves them on the stack. -/
theorem run_args {codes : List (List Instr)} (hready : c.Ready env f args) (hf : f.target = t)
    (hs : f.strict = true) (hnamed : ∀ v ∈ args, ¬ v.Nameless t)
    (h : List.Forall₂ (ArgCode t f) done codes) (hsuffix : done <:+ args) :
    ∃ d, c.run env codes.reverse.flatten = some d ∧ c.Pushed env f args done d := by
  induction h with
  | nil => exact ⟨c, rfl, .nil c f args⟩
  | @cons v is done codes hcode _ ih =>
    have hlen := hsuffix.length_le
    obtain ⟨d, hrun, hd⟩ := ih ((List.suffix_cons v done).trans hsuffix)
    have hv := hsuffix.subset List.mem_cons_self
    obtain ⟨d', hrun', hd'⟩ := hd.run_argCode hready hf hs hlen hv (hnamed v hv) hcode
    refine ⟨d', ?_, hd'⟩
    rw [List.reverse_cons, List.flatten_append, run_append, hrun, Option.bind_some,
      List.flatten_singleton, hrun']

/-- No code for arguments runs if one of them is a byte without a name. -/
theorem run_args_nameless {codes : List (List Instr)} (h : List.Forall₂ (ArgCode t f) args codes)
    (hv : v ∈ args) (hint : v.isFloat = false) (hnameless : v.Nameless t) :
    c.run env codes.reverse.flatten = none := by
  obtain ⟨is, his, hcode⟩ : ∃ is ∈ codes, ArgCode t f v is := by
    induction h with
    | nil => cases hv
    | cons hcode _ ih =>
      rcases List.mem_cons.mp hv with rfl | hv
      · exact ⟨_, List.mem_cons_self, hcode⟩
      · obtain ⟨is, his, hcode⟩ := ih hv
        exact ⟨is, List.mem_cons_of_mem _ his, hcode⟩
  obtain ⟨pre, post, hsplit⟩ := List.append_of_mem (List.mem_reverse.mpr his)
  rw [hsplit, List.flatten_append, List.flatten_cons, run_append, Option.bind_eq_none_iff]
  intro d _
  rw [run_append, run_argCode_nameless hcode hint hnameless, Option.bind_none]

theorem run_callThenDrop {name : Text} {n : Nat} (h : d.sp = c.sp - BitVec.ofNat _ (n * t.wordSize)) :
    ∃ d', d.run env (t.callThenDrop name n).tail = some d' ∧ d'.sp = c.sp := by
  rw [Target.callThenDrop, List.tail_cons]
  by_cases hn : n = 0
  · rw [if_pos hn]
    refine ⟨d, rfl, ?_⟩
    rw [h, hn, Nat.zero_mul, BitVec.sub_zero]
  · rw [if_neg hn, run_singleton]
    refine ⟨_, combine_stackPointer (n * t.wordSize) fun x y => x + y, ?_⟩
    rw [sp, reg_set_self, h, BitVec.sub_add_cancel]

/-! ## The callee -/

/-- The entry of a function points the base pointer at the word below the return address. -/
theorem run_entry (env : Text → t.Word) (c : Cpu t) (p : Episode) :
    ∃ d, c.run env (p.entry t) = some d ∧
      d.reg t.basePointer = c.sp - BitVec.ofNat _ t.wordSize ∧
      d.mem = (c.push (c.reg t.basePointer)).mem := by
  have hpush : c.exec env (.push t.basePointer) = _ := exec_push t.view?_basePointer
  have hmov : ∀ d : Cpu t, d.exec env ⟨.mov, [.reg t.basePointer, .reg t.stackPointer]⟩ =
      some (d.set t.basePointer d.sp) :=
    fun d => exec_mov t.view?_basePointer (value?_full t.view?_stackPointer)
  rw [Episode.entry, run_append, run_cons, hpush, Option.bind_some, run_singleton, hmov,
    Option.bind_some]
  by_cases hlocals : 0 < p.localSize t
  · rw [if_pos hlocals, run_singleton]
    refine ⟨_, combine_stackPointer (p.localSize t) fun x y => x - y, ?_, rfl⟩
    rw [reg_set_of_ne _ _ t.physical_basePointer_ne, reg_set_self, sp_push]
  · rw [if_neg hlocals]
    exact ⟨_, rfl, by rw [reg_set_self, sp_push], rfl⟩

/-- Above the base pointer, the return address and the saved base pointer come first. -/
theorem address?_paramSlot {ret : t.Word} (h : d.reg t.basePointer =
    (c.push ret).sp - BitVec.ofNat _ t.wordSize) (i : Nat) :
    d.address? env (t.paramSlot i) = some (c.sp + BitVec.ofNat _ (i * t.wordSize)) := by
  have hbase : d.base? env t.basePointer = some (d.reg t.basePointer) :=
    base?_full env d t.view?_basePointer
  have hplace : (i + 2) * t.wordSize = i * t.wordSize + t.wordSize + t.wordSize := by
    rw [Nat.succ_mul, Nat.succ_mul]
  rw [Target.paramSlot, address?, hbase, Option.map_some, h, sp_push, hplace, BitVec.ofNat_add,
    BitVec.ofNat_add]
  exact congrArg some ((sub_add_add_cancel ..).trans (sub_add_add_cancel ..))

theorem exec_fetch {type : Text} {slot : Address} {a : t.Word} (hr : r ∈ t.intPool)
    (hint : TypePolicy.isFloat type = false) (hle : t.typeSize type ≤ t.wordSize)
    (ha : d.address? env slot = some a) :
    d.exec env (t.fetch r type slot) = some (d.set r
      (((d.mem.read a t.wordSize).setWidth (8 * t.typeSize type)).signExtend _)) := by
  have hfull := t.view?_intPool hr
  have hsize := t.typeSize_cases type
  have hvalue : ∀ k, d.value? env k (.mem slot) = some (d.mem.read a k) := by
    intro k
    rw [value?, ha, Option.map_some]
  rw [Memory.setWidth_read _ _ hle, Target.fetch, if_neg (by simp [hint])]
  by_cases hlt : t.typeSize type < t.wordSize
  · have hbytes := t.bytes_operandSize hsize
    rw [if_pos hlt]
    refine exec_signExtend hfull (by rw [Operand.bytes?, hbytes]) hsize hlt ?_
    rw [value?, if_pos hbytes, hvalue]
  · have heq : t.typeSize type = t.wordSize := by omega
    rw [if_neg hlt, heq, BitVec.signExtend_eq]
    exact exec_mov hfull (hvalue _)

end Cpu

/-! ## Agreement -/

/-- After the return address and the entry of a function, every argument is still in its word. -/
theorem Cpu.read_of_run_entry {t : Target} {c d : Cpu t} {ret b : t.Word} {n i : Nat}
    (hroom : (n + 2) * t.wordSize ≤ 2 ^ (8 * t.wordSize)) (hi : i < n)
    (hmem : d.mem = ((c.push ret).push b).mem) :
    d.mem.read (c.sp + BitVec.ofNat _ (i * t.wordSize)) t.wordSize = c.slot i := by
  have hbound : ∀ k ≤ n + 2, k * t.wordSize ≤ 2 ^ (8 * t.wordSize) :=
    fun k hk => (Nat.mul_le_mul_right _ hk).trans hroom
  have hplace : (i + 2) * t.wordSize = i * t.wordSize + t.wordSize + t.wordSize := by
    rw [Nat.succ_mul, Nat.succ_mul]
  have haddr : ((c.push ret).push b).sp + BitVec.ofNat _ ((i + 2) * t.wordSize) =
      c.sp + BitVec.ofNat _ (i * t.wordSize) := by
    rw [sp_push, sp_push, hplace, BitVec.ofNat_add, BitVec.ofNat_add]
    exact (sub_add_add_cancel ..).trans (sub_add_add_cancel ..)
  calc d.mem.read (c.sp + BitVec.ofNat _ (i * t.wordSize)) t.wordSize
      = ((c.push ret).push b).slot (i + 2) := by rw [hmem, slot, haddr]
    _ = (c.push ret).slot (i + 1) := slot_push_succ _ _ (hbound _ (by omega))
    _ = c.slot i := slot_push_succ _ _ (hbound _ (by omega))

/-- Caller and callee agree on integer arguments, unless one of them is a byte without a name: its
sign cannot be extended in place, and the code for the arguments does not run.  Otherwise, at the
call of a strict engine, the words from the stack pointer on are the arguments in order, each with
its sign.  Registers of arguments keep their low bytes, and what follows the call takes the words
off again.  In a function that is called so, a parameter is at the distance of its place from the
base pointer: the first use of it loads the low bytes of its word with their sign, and a later use
is the same register. -/
theorem Engine.arguments_agree_iff {t : Target} (env : Text → t.Word) (c : Cpu t)
    (qs : List Request) (name : Text) (args : List Value) (type : Text) (v : Value)
    (hcall : ((Engine.new t true).serveAll qs).reply (.callAs name args type) = .ok (.value v))
    (hready : c.Ready env ((Engine.new t true).serveAll qs).regs args) :
    ∃ pushes drop : List Instr,
      (((Engine.new t true).serveAll qs).serve (.callAs name args type)).body =
        ((Engine.new t true).serveAll qs).body ++ (pushes ++ .mk .call [.sym name] :: drop ++
          [t.resultMove v.name type]).map .instr ∧
      ((∃ c₁, c.run env pushes = some c₁) ↔ ∀ arg ∈ args, ¬ arg.Nameless t) ∧
      ∀ c₁, c.run env pushes = some c₁ →
      c₁.sp = c.sp - BitVec.ofNat _ (args.length * t.wordSize) ∧
      (∀ i arg, args[i]? = some arg → c.word? env arg = some (c₁.slot i)) ∧
      (∀ arg ∈ args, arg.isRegister = true → c₁.low? env arg = c.low? env arg) ∧
      (∀ d : Cpu t, d.sp = c₁.sp → ∃ d', d.run env drop = some d' ∧ d'.sp = c.sp) ∧
      ∀ (ret : t.Word) (p : Episode), ∃ c₂, (c₁.push ret).run env (p.entry t) = some c₂ ∧
        ∀ i < args.length,
          let word := c₁.sp + BitVec.ofNat _ (i * t.wordSize)
          c₂.mem.read word t.wordSize = c₁.slot i ∧
          ∀ strict qs' f g q a, ((Engine.new t strict).serveAll qs').current = some g →
            (g.params.map (·.name)).Nodup → g.params[i]? = some q →
            TypePolicy.isFloat q.type = false → t.typeSize q.type ≤ t.wordSize →
            ((Engine.new t strict).serveAll qs').reply (.param f q.name) = .ok (.value a) →
            (∀ b, g.cached.get? q.name = some b → a = b ∧
              (((Engine.new t strict).serveAll qs').serve (.param f q.name)).body =
                ((Engine.new t strict).serveAll qs').body) ∧
            (g.cached.get? q.name = none → ∃ load : Instr,
              (((Engine.new t strict).serveAll qs').serve (.param f q.name)).body =
                ((Engine.new t strict).serveAll qs').body ++ [Line.instr load] ∧
              load = t.fetch a.name q.type (.above t.basePointer ((i + 2) * t.wordSize)) ∧
              ∀ d : Cpu t, d.reg t.basePointer = c₂.reg t.basePointer →
                d.address? env (.above t.basePointer ((i + 2) * t.wordSize)) = some word ∧
                ∃ d', d.exec env load = some d' ∧ d'.mem = d.mem ∧ d'.reg a.name =
                  ((d.mem.read word t.wordSize).setWidth (8 * t.typeSize q.type)).signExtend _) := by
  obtain ⟨codes, hcodes, hbody⟩ := Engine.body_callAs t true qs hcall
  have htarget : ((Engine.new t true).serveAll qs).regs.target = t :=
    (Engine.regs_target_serveAll rfl qs).trans (Engine.serveAll_target _ qs)
  have hstrict : ((Engine.new t true).serveAll qs).regs.strict = true :=
    ((Engine.strict_new t).serveAll qs).file
  have hruns : (∀ arg ∈ args, ¬ arg.Nameless t) →
      ∃ c₁, c.run env codes.reverse.flatten = some c₁ ∧ c.Pushed env _ args args c₁ :=
    fun hnamed => Cpu.run_args hready htarget hstrict hnamed hcodes List.suffix_rfl
  have hnamed : ∀ c₁, c.run env codes.reverse.flatten = some c₁ →
      ∀ arg ∈ args, ¬ arg.Nameless t := by
    intro c₁ hrun arg harg hnameless
    rw [Cpu.run_args_nameless hcodes harg (hready.int arg harg) hnameless] at hrun
    cases hrun
  refine ⟨codes.reverse.flatten, (t.callThenDrop name args.length).tail, hbody,
    ⟨fun h => h.elim hnamed, fun h => (hruns h).imp fun _ hc => hc.1⟩, fun c₁ hrun => ?_⟩
  obtain ⟨_, hrun', hpushed⟩ := hruns (hnamed c₁ hrun)
  cases hrun.symm.trans hrun'
  refine ⟨hpushed.sp, hpushed.slots, hpushed.low, fun d hd => ?_, fun ret p => ?_⟩
  · exact Cpu.run_callThenDrop (hd.trans hpushed.sp)
  · obtain ⟨c₂, hentry, hbase, hmem⟩ := Cpu.run_entry env (c₁.push ret) p
    refine ⟨c₂, hentry, fun i hi => ⟨Cpu.read_of_run_entry hready.room hi hmem, ?_⟩⟩
    intro strict qs' f g q a hcur hnames hq hint hle hreply
    refine ⟨fun b hold => Engine.body_param_cached t strict qs' hreply hcur hold, fun hnew => ?_⟩
    obtain ⟨q', i', hfind, hpool, hload⟩ := Engine.body_param t strict qs' hreply hcur hnew
    rw [find?_param hnames hq 0, Option.some.injEq, Prod.mk.injEq, Nat.zero_add] at hfind
    obtain ⟨rfl, rfl⟩ := hfind
    refine ⟨_, hload, rfl, fun d hd => ?_⟩
    have haddr : d.address? env (t.paramSlot i) = _ := Cpu.address?_paramSlot (hd.trans hbase) i
    exact ⟨haddr, _, Cpu.exec_fetch (hpool hint) hint hle haddr, rfl, Cpu.reg_set_self ..⟩

/-- A machine with a negative byte in a register that is full otherwise, and with memory in which
each byte is the low byte of its address. -/
def Cpu.sample : Cpu .bits32 where
  regs r :=
    if r = ("rbx" : Text) then 0x123456FF else if r = ("rsp" : Text) then 0x1000
    else if r = ("rbp" : Text) then 0x2088 else 0
  mem a := a.setWidth 8

/-- Arguments of every kind, the register twice: each word has the sign of its argument.  A second
parameter of one byte gets the low byte of the word for two bytes.  The same byte in another
register cannot be passed. -/
theorem Engine.arguments_agree_iff_mixed :
    let env : Text → Target.Word .bits32 := fun _ => 0x3080
    let e := (Engine.new .bits32 true).serveAll [.alloc "int8"]
    let args : List Value := [.ofRegister "ebx" "int8" true, .ofGlobal "g" "int16",
      .ofSlot "x" "int32" "ebp" 4, .ofIntAs (-5) "int8", .ofRegister "ebx" "int8" true]
    let e' := (Engine.new .bits32 false).serveAll [.beginFunction "f" [⟨"a", "int8"⟩, ⟨"b", "int8"⟩]]
    let full := (Engine.new .bits32 true).serveAll
      [.alloc "int32", .alloc "int32", .alloc "int32", .alloc "int8"]
    (∃ v a, e.reply (.callAs "f" args "int32") = .ok (.value v) ∧
      Cpu.sample.Ready env e.regs args ∧ e'.reply (.param ⟨0, "f"⟩ "b") = .ok (.value a) ∧
      ∃ (pushes : List Instr) (c₁ : Cpu .bits32), Cpu.sample.run env pushes = some c₁ ∧
        c₁.sp = 0xFEC ∧
        (c₁.slot 0, c₁.slot 1, c₁.slot 2, c₁.slot 3, c₁.slot 4) =
          (0xFFFFFFFF, 0xFFFF8180, 0x87868584, 0xFFFFFFFB, 0xFFFFFFFF) ∧
        ∃ c₂ : Cpu .bits32, (c₁.push 0).run env ((Episode.new "f").entry .bits32) = some c₂ ∧
          ∃ load, (e'.serve (.param ⟨0, "f"⟩ "b")).body = e'.body ++ [Line.instr load] ∧
            ∃ d', c₂.exec env load = some d' ∧ d'.reg a.name = 0xFFFFFF80) ∧
    ∃ v, full.reply (.callAs "f" [.ofRegister "esi" "int8" true] "int32") = .ok (.value v) ∧
      Cpu.sample.Ready env full.regs [.ofRegister "esi" "int8" true] ∧
      ∃ pushes drop : List Instr,
        (full.serve (.callAs "f" [.ofRegister "esi" "int8" true] "int32")).body =
          full.body ++ (pushes ++ .mk .call [.sym "f"] :: drop ++
            [Target.bits32.resultMove v.name "int32"]).map .instr ∧
        ¬ ∃ c₁, Cpu.sample.run env pushes = some c₁ := by
  intro env e args e' full
  have hcall : e.reply (.callAs "f" args "int32") = .ok (.value (.ofRegister "ecx" "int32" true)) := by
    decide +kernel
  have hparam : e'.reply (.param ⟨0, "f"⟩ "b") = .ok (.value (.ofRegister "ebx" "int8" false)) := by
    decide +kernel
  have hready : Cpu.sample.Ready env e.regs args := by
    have hregister : Cpu.sample.Passable env e.regs args (.ofRegister "ebx" "int8" true) :=
      .register rfl (by decide +kernel) (by decide +kernel)
    refine ⟨by decide +kernel, by decide +kernel, ?_, by decide +kernel, by decide⟩
    intro v hv
    simp only [args, List.mem_cons, List.not_mem_nil, or_false] at hv
    rcases hv with rfl | rfl | rfl | rfl | rfl
    · exact hregister
    · exact .memory rfl rfl (by unfold Cpu.Steady; decide +kernel) (by unfold Below; decide +kernel)
    · exact .memory rfl rfl (by unfold Cpu.Steady; decide +kernel) (by unfold Below; decide +kernel)
    · exact .number (x := -5) rfl (by decide +kernel) (by decide +kernel) (by decide +kernel)
    · exact hregister
  constructor
  · obtain ⟨pushes, drop, -, hruns, hagree⟩ :=
      Engine.arguments_agree_iff env Cpu.sample [.alloc "int8"] "f" args "int32" _ hcall hready
    obtain ⟨c₁, hrun⟩ := hruns.mpr (by decide +kernel)
    obtain ⟨hsp, hslots, -, -, hcallee⟩ := hagree c₁ hrun
    obtain ⟨c₂, hentry, hparams⟩ := hcallee 0 (Episode.new "f")
    obtain ⟨hword, hagree⟩ := hparams 1 (by decide)
    obtain ⟨-, hfirst⟩ := hagree false [.beginFunction "f" [⟨"a", "int8"⟩, ⟨"b", "int8"⟩]] ⟨0, "f"⟩
      _ ⟨"b", "int8"⟩ _ rfl (by decide +kernel) rfl (by decide +kernel) (by decide +kernel) hparam
    obtain ⟨load, hbody, -, hload⟩ := hfirst (by decide +kernel)
    obtain ⟨-, d', hexec, -, hreg⟩ := hload c₂ rfl
    have hslot : ∀ (i : Nat) (arg : Value) (x : Target.Word .bits32), args[i]? = some arg →
        Cpu.sample.word? env arg = some x → c₁.slot i = x := by
      intro i arg x harg hx
      exact Option.some.inj ((hslots i arg harg).symm.trans hx)
    have hslot₁ : c₁.slot 1 = 0xFFFF8180 := hslot 1 _ _ rfl (by decide +kernel)
    refine ⟨_, _, hcall, hready, hparam, pushes, c₁, hrun, hsp.trans (by decide +kernel), ?_, c₂,
      hentry, load, hbody, d', hexec, ?_⟩
    · rw [hslot 0 _ 0xFFFFFFFF rfl (by decide +kernel), hslot₁,
        hslot 2 _ 0x87868584 rfl (by decide +kernel), hslot 3 _ 0xFFFFFFFB rfl (by decide +kernel),
        hslot 4 _ 0xFFFFFFFF rfl (by decide +kernel)]
    · rw [hreg, hword, hslot₁]
      decide +kernel
  · have hfull : full.reply (.callAs "f" [.ofRegister "esi" "int8" true] "int32") =
        .ok (.value (.ofRegister "edi" "int32" true)) := by decide +kernel
    have hready' : Cpu.sample.Ready env full.regs [.ofRegister "esi" "int8" true] := by
      refine ⟨by decide +kernel, by decide +kernel, ?_, by decide +kernel, by decide⟩
      rw [List.forall_mem_singleton]
      exact .register rfl (by decide +kernel) (by decide +kernel)
    obtain ⟨pushes, drop, hbody, hruns, -⟩ := Engine.arguments_agree_iff env Cpu.sample
      [.alloc "int32", .alloc "int32", .alloc "int32", .alloc "int8"] "f" _ "int32" _ hfull hready'
    refine ⟨_, hfull, hready', pushes, drop, hbody, fun hrun => ?_⟩
    exact hruns.mp hrun _ (List.mem_singleton_self _) (by decide +kernel)

end Assembly
