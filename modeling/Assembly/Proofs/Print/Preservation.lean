import Assembly.Proofs.Cast.Conversion
import Assembly.Proofs.Print.Call
import Assembly.Proofs.Print.Code

/-!
# Registers across prints

A print of a text keeps every register that is in use.  A print of a number does so only for those
that the runtime routine gives back: the system calls of the routine overwrite others of the pool.
A byte without a name cannot be printed.
-/

namespace Assembly

open Process Routine

variable {t : Target} {env : Text → t.Word} {p : Process t} {v : Value} {r : Text}
  {rest : List Line}

/-! ## Arguments of the routines -/

namespace Process

theorem value?_of_cpu {n : Nat} {o : Operand} {x : BitVec (8 * n)}
    (h : p.cpu.value? env n o = some x) : p.value? env n o = some x := by
  cases o with
  | char | hex => cases h
  | _ => exact h

theorem exec_extension {m : Mnemonic} {os : List Operand} (hm : m = .movsx ∨ m = .movsxd) :
    p.exec env ⟨m, os⟩ = (p.cpu.exec env ⟨m, os⟩).map fun c => { p with cpu := c } := by
  rcases hm with rfl | rfl <;> rfl

/-- A move to a register does to a process what it does to the machine with words. -/
theorem exec_of_cpu {m : Mnemonic} {d : Text} {s : Operand} {x : t.Word}
    (hm : m = .mov ∨ m = .movsx ∨ m = .movsxd)
    (h : p.cpu.exec env ⟨m, [.reg d, s]⟩ = some (p.cpu.set r x)) :
    p.exec env ⟨m, [.reg d, s]⟩ = some (p.set r x) := by
  rcases hm with rfl | hm
  · obtain ⟨part, hpart, hvalue⟩ := Option.bind_eq_some_iff.mp h
    obtain ⟨y, hy, hput⟩ := Option.map_eq_some_iff.mp hvalue
    show p.mov env [.reg d, s] = _
    simp only [Process.mov, hpart, Option.bind_some, value?_of_cpu hy, Option.map_some]
    exact congrArg (fun c => some { p with cpu := c }) hput
  · rw [exec_extension hm, h]
    rfl

end Process

theorem Target.resize_of_le (t : Target) : ∀ r ∈ t.intPool, ∀ n ∈ [1, 2, 4, 8], t.wordSize ≤ n →
    t.resize r n = r := by
  cases t <;> decide

/-- A load of an integer that is not in a register runs, whatever its size. -/
theorem exists_exec_intLoad (env : Text → t.Word) (c : Cpu t) (hr : r ∈ t.intPool)
    (hv : v.Readable t) (hreg : v.isRegister = false) :
    ∃ x, c.exec env (t.intLoad r v (t.typeOrWord v.type)) = some (c.set r x) := by
  have hfull := t.view?_intPool hr
  have hsize := t.typeSize_cases v.type
  simp only [Target.intLoad, t.typeSize_typeOrWord]
  cases hv with
  | register hkind => rw [hreg] at hkind; cases hkind
  | @number x hkind hx =>
    have hvalue : c.value? env t.wordSize (.literal v.text) = some (BitVec.ofInt _ x) := by
      rw [Cpu.value?, hx, Option.map_some]
    rw [if_pos hkind]
    exact ⟨_, Cpu.exec_mov hfull hvalue⟩
  | memory hkind hbase =>
    obtain ⟨a, ha⟩ := Cpu.exists_address? env c hbase
    have hvalue : ∀ k, c.value? env k v.operand = some (c.mem.read a k) := by
      intro k
      rw [Cpu.operand_of_isMemory hkind, Cpu.value?, ha, Option.map_some]
    rw [if_neg (Cpu.kind_ne_number_of_isMemory hkind)]
    by_cases hlt : t.typeSize v.type < t.wordSize
    · have hbytes := t.bytes_operandSize hsize
      have hsized : c.value? env _ (t.sizedOperand (t.typeSize v.type) v) =
          some (c.mem.read a (t.typeSize v.type)) := by
        rw [Target.sizedOperand, Cpu.value?, if_pos hbytes, hvalue]
      rw [if_pos ⟨hkind, hlt⟩]
      exact ⟨_, Cpu.exec_signExtend hfull
        (by rw [Target.sizedOperand, Operand.bytes?, hbytes]) hsize hlt hsized⟩
    · rw [if_neg fun h => hlt h.2, t.resize_of_le r hr _ (by simpa using hsize) (by omega)]
      exact ⟨_, Cpu.exec_mov hfull (hvalue _)⟩

theorem signExtend_cases (t : Target) (n : Nat) :
    t.signExtend n = .movsx ∨ t.signExtend n = .movsxd := by
  rw [Target.signExtend]
  split
  · exact .inr rfl
  · exact .inl rfl

/-- The sign extension of a register touches the register only. -/
theorem widening_passage (env : Text → t.Word) (p : Process t) (rest : List Line)
    (hpool : v.name ∈ t.intPool) (hnamed : ¬ (t.typeSize v.type = 1 ∧ v.name ∈ t.byteless)) :
    ∃ q, Passage env [] [physical v.name] (fun _ => False)
      ((t.widening v).map .instr ++ rest, p) (rest, q) := by
  by_cases hlt : t.typeSize v.type < t.wordSize
  · obtain ⟨m, s, hm, hcode⟩ : ∃ m s, (m = .movsx ∨ m = .movsxd) ∧
        t.widening v = [⟨m, [.reg v.name, s]⟩] :=
      ⟨_, _, signExtend_cases t _, by rw [Target.widening, if_pos hlt]⟩
    have hcpu : p.cpu.run env (t.widening v) = _ := Cpu.run_widening hpool hlt.le hnamed
    rw [hcode, Cpu.run_singleton] at hcpu
    have hstart : Passage env [] [physical v.name] (fun _ => False)
      ((t.widening v).map .instr ++ rest, p) ((t.widening v).map .instr ++ rest, p) := .refl _
    nth_rewrite 2 [hcode] at hstart
    have hjump : m.jumps = false := by rcases hm with rfl | rfl <;> rfl
    exact ⟨_, hstart.exec hjump (exec_of_cpu (.inr hm) hcpu)
      ((Touches.refl p).set List.mem_cons_self _)⟩
  · rw [Target.widening, if_neg hlt]
    exact ⟨p, .refl _⟩

/-- Code that starts with the sign extension of a byte without a name does not run. -/
theorem not_runs_widening (h : v.Nameless t) {site : t.Word} {q : Process t} :
    ¬ Runs env site ((t.widening v).map .instr ++ rest) p q := by
  intro hrun
  rw [Target.widening, if_pos h.lt_wordSize, List.map_singleton, List.singleton_append] at hrun
  have hm := signExtend_cases t (t.typeSize v.type)
  have hstuck : p.cpu.run env (t.widening v) = none := Cpu.run_widening_nameless h
  rw [Target.widening, if_pos h.lt_wordSize, Cpu.run_singleton] at hstuck
  obtain ⟨p', hp'⟩ := hrun.exec_head (by rcases hm with hm | hm <;> rw [hm] <;> rfl)
    (by rcases hm with hm | hm <;> rw [hm] <;> exact Mnemonic.noConfusion)
  rw [exec_extension hm, hstuck] at hp'
  cases hp'

theorem intLoad_passage (env : Text → t.Word) (p : Process t) (rest : List Line)
    (hr : r ∈ t.intPool) (hv : v.Readable t) (hreg : v.isRegister = false) :
    ∃ q, Passage env [] [physical r] (fun _ => False)
      (.instr (t.intLoad r v (t.typeOrWord v.type)) :: rest, p) (rest, q) := by
  obtain ⟨x, hx⟩ := exists_exec_intLoad env p.cpu hr hv hreg
  obtain ⟨m, d, s, hm, hcode⟩ : ∃ m d s, (m = .mov ∨ m = .movsx ∨ m = .movsxd) ∧
      t.intLoad r v (t.typeOrWord v.type) = ⟨m, [.reg d, s]⟩ := by
    rw [Target.intLoad]
    split
    · exact ⟨_, _, _, .inl rfl, rfl⟩
    · split
      · exact ⟨_, _, _, .inr (signExtend_cases t _), rfl⟩
      · exact ⟨_, _, _, .inl rfl, rfl⟩
  rw [hcode] at hx ⊢
  have hjump : m.jumps = false := by rcases hm with rfl | rfl | rfl <;> rfl
  exact ⟨_, (Passage.refl _).exec hjump (exec_of_cpu hm hx)
    ((Touches.refl p).set List.mem_cons_self _)⟩

theorem push_passage {code : List Line} {q : Process t} (hr : r ∈ t.intPool)
    (h : Passage env [] [physical r] (fun _ => False) (code, p) (Line.op .push [.reg r] :: rest, q)) :
    ∃ q', Passage env [] [physical r, physical t.stackPointer] (Below p.sp t.wordSize) (code, p)
      (rest, q') ∧ q'.sp = p.sp - BitVec.ofNat _ t.wordSize := by
  have hsp : q.sp = p.sp := h.touches.reg (by simpa using (t.physical_intPool r hr).1.symm)
  have hload : Passage env [] [physical r, physical t.stackPointer] (Below p.sp t.wordSize) (code, p)
      (Line.op .push [.reg r] :: rest, q) :=
    h.mono (List.subset_append_left [physical r] [physical t.stackPointer]) fun _ hb => hb.elim
  have hpush := hload.push (t.view?_intPool hr) (by simp) fun b hb => by
    rw [hsp] at hb
    exact hb.below le_rfl
  exact ⟨_, hpush, by rw [sp_push, hsp]⟩

/-- The registers that putting a single on the stack changes. -/
def singleRegs (t : Target) : List Text :=
  if t = .bits16 then [physical t.stackPointer, "rsi"] else [physical t.stackPointer]

theorem singleRegs_apart (t : Target) : ∀ r ∈ t.intPool, physical r ∉ singleRegs t := by
  cases t <;> decide

theorem singlePush_passage (env : Text → t.Word) (p : Process t) (rest : List Line) (reg : Text) :
    ∃ q, Passage env [] (singleRegs t) (Below p.sp 8) ((t.singlePush reg).map .instr ++ rest, p)
      (rest, q) ∧ q.sp = p.sp - BitVec.ofNat _ 8 := by
  have hstart : Passage env [] (singleRegs t) (Below p.sp 8)
    ((t.singlePush reg).map .instr ++ rest, p) ((t.singlePush reg).map .instr ++ rest, p) := .refl _
  cases t with
  | bits16 =>
    obtain ⟨f, h₁⟩ := hstart.sub (y := 8) Target.bits16.view?_stackPointer rfl (by decide)
    have h₂ := h₁.mov (d := "si") (by decide) (value?_full (by decide)) (by decide)
    have h₃ := h₂.storeAnswer (.direct "si") 4 rfl rfl rfl fun b hb =>
      (Within.below (a := p.sp) (k := 8) hb (by decide))
    exact ⟨_, h₃, rfl⟩
  | bits32 =>
    obtain ⟨f, h₁⟩ := hstart.sub (y := 8) Target.bits32.view?_stackPointer rfl (by decide)
    have h₂ := h₁.storeAnswer (.direct "esp") 4 rfl rfl rfl fun b hb =>
      (Within.below (a := p.sp) (k := 8) hb (by decide))
    exact ⟨_, h₂, rfl⟩
  | bits64 =>
    obtain ⟨f, h₁⟩ := hstart.sub (y := 8) Target.bits64.view?_stackPointer rfl (by decide)
    have h₂ := h₁.storeAnswer (.direct "rsp") 4 rfl rfl rfl fun b hb =>
      (Within.below (a := p.sp) (k := 8) hb (by decide))
    exact ⟨_, h₂, rfl⟩

theorem narrow_passage {regs : List Text} {area : t.Word → Prop} (env : Text → t.Word)
    (p : Process t) (rest : List Line) (reg : Text) (w : Value) (type : Text) :
    Passage env [] regs area (.instr (t.narrow reg w type) :: rest, p) (rest, p) := by
  rw [Target.narrow]
  split
  · exact (Passage.refl _).skip rfl rfl
  · exact (Passage.refl _).skip rfl rfl

/-! ## Numbers -/

theorem scratch_apart (t : Target) :
    ∀ r ∈ t.intPool, r ∉ PrintInt.lost t → physical r ∉ PrintInt.scratch t := by
  cases t <;> decide

/-- How a print of a number leaves a register: as it was, or with what is left of the routine. -/
def NumberOutcome (env : Text → t.Word) (r : Text) (p p' : Process t) : Prop :=
  (r ∉ PrintInt.lost t → p'.reg r = p.reg r) ∧ (r ∈ PrintInt.lost t → Leftover env p (p'.reg r))

/-- The outcome of code that pushes an argument without using the register, and calls. -/
theorem call_outcome (h : PrintLayout env p) {code : List Line} {regs : List Text} {k : Nat}
    {p₁ : Process t} (site : t.Word) (b : Builtin) (n : Nat)
    (hcode : Passage env [] regs (Below p.sp k)
      (code ++ [Line.op .call [.sym b.label], .instr (t.drop n)], p)
      ([Line.op .call [.sym b.label], .instr (t.drop n)], p₁))
    (hsp : p₁.sp = p.sp - BitVec.ofNat _ k) (hk : k ≤ 7 * t.wordSize) (hr : r ∈ t.intPool)
    (hregs : physical r ∉ regs) :
    ∃ p', Runs env site (code ++ [Line.op .call [.sym b.label], .instr (t.drop n)]) p p' ∧
      NumberOutcome env r p p' := by
  obtain ⟨p', hrun, hkept, hlost⟩ := call_runs h site b n hcode hsp hk
  exact ⟨p', hrun, fun hnot => hkept _ hregs (scratch_apart t r hr hnot) (t.physical_intPool r hr).1,
    hlost r⟩

variable {f : RegisterFile} {is : List Instr}

/-- A print of a number runs, and a register that neither the number nor the scratch register is
in comes out of it in one of the two ways. -/
theorem PrintCode.runs_number (hcode : PrintCode t f v is) (h : PrintLayout env p) (site : t.Word)
    (hkind : v.kind ≠ .string) (hv : v.isFloat = true ∨ v.Readable t) (hnamed : ¬ v.Nameless t)
    (hf : f.pool .int = t.intPool) (hr : r ∈ t.intPool) (hown : v.isRegister = true → v.name ≠ r)
    (hscratch : v.isRegister = false → v.isFloat = false → ∀ tmp, f.Hands .int tmp → tmp ≠ r) :
    ∃ p', Runs env site (is.map .instr) p p' ∧ NumberOutcome env r p p' := by
  have hword : 8 ≤ 7 * t.wordSize := by cases t <;> decide
  have hint : v.isFloat = false → v.Readable t := by
    intro hfloat
    rw [hfloat] at hv
    exact hv.resolve_left Bool.false_ne_true
  have hne : ∀ d ∈ t.intPool, d ≠ r → physical r ∉ [physical d, physical t.stackPointer] := by
    intro d hd hdr
    simp only [List.mem_cons, List.not_mem_nil, or_false, not_or]
    exact ⟨fun heq => hdr (t.physical_injOn d hd r hr heq.symm), (t.physical_intPool r hr).1⟩
  cases hcode with
  | text _ hstring => exact absurd hstring hkind
  | single reg =>
    obtain ⟨q, hq, hsp⟩ := singlePush_passage env p
      [Line.op .call [.sym Builtin.printFloat.label], .instr (t.drop 8)] reg
    rw [List.map_append]
    exact call_outcome h site .printFloat 8 hq hsp hword hr (singleRegs_apart t r hr)
  | narrowed reg w type =>
    obtain ⟨q, hq, hsp⟩ := singlePush_passage env p
      [Line.op .call [.sym Builtin.printFloat.label], .instr (t.drop 8)] reg
    rw [List.map_append]
    exact call_outcome h site .printFloat 8 ((narrow_passage env p _ reg w type).trans hq) hsp hword
      hr (singleRegs_apart t r hr)
  | register hreg hfloat =>
    have hpool : v.name ∈ t.intPool := (hint hfloat).mem_intPool hreg
    obtain ⟨q, hq⟩ := widening_passage env p
      (Line.op .push [.reg v.name] :: [Line.op .call [.sym Builtin.printInt.label],
        .instr (t.drop (1 * t.wordSize))]) hpool fun h => hnamed ⟨hreg, h.2, h.1⟩
    obtain ⟨q', hq', hsp⟩ := push_passage hpool hq
    have hlines : (t.widening v ++ [Instr.push v.name]).map Line.instr ++
        [Line.op .call [.sym Builtin.printInt.label], .instr (t.drop (1 * t.wordSize))] =
        (t.widening v).map .instr ++ (Line.op .push [.reg v.name] ::
          [Line.op .call [.sym Builtin.printInt.label], .instr (t.drop (1 * t.wordSize))]) := by
      rw [List.map_append, List.append_assoc]
      rfl
    rw [← hlines] at hq'
    rw [List.map_append]
    exact call_outcome h site .printInt (1 * t.wordSize) hq' hsp (by omega) hr
      (hne v.name hpool (hown hreg))
  | @loaded tmp hreg _ hfloat htmp =>
    have hpool : tmp ∈ t.intPool := hf ▸ htmp.mem_pool
    obtain ⟨q, hq⟩ := intLoad_passage env p
      (Line.op .push [.reg tmp] :: [Line.op .call [.sym Builtin.printInt.label],
        .instr (t.drop (1 * t.wordSize))]) hpool (hint hfloat) hreg
    obtain ⟨q', hq', hsp⟩ := push_passage hpool hq
    rw [List.map_append]
    exact call_outcome h site .printInt (1 * t.wordSize) hq' hsp (by omega) hr
      (hne tmp hpool (hscratch hreg hfloat tmp htmp))

/-- A print of a byte without a name does not run. -/
theorem PrintCode.not_runs (hcode : PrintCode t f v is) (h : v.Nameless t) {site : t.Word}
    {q : Process t} : ¬ Runs env site (is.map .instr) p q := by
  cases hcode with
  | text _ hkind => exact absurd h.1 (by simp [Value.isRegister, hkind])
  | single _ _ hfloat | narrowed _ _ _ _ hfloat => exact absurd hfloat (by simp [h.not_isFloat])
  | loaded hreg => rw [h.1] at hreg; cases hreg
  | register =>
    rw [List.append_assoc, List.map_append]
    exact not_runs_widening h

/-! ## Texts -/

theorem writeCall_passage (env : Text → t.Word) (p : Process t) (rest : List Line) {label : Text}
    (hlabel : part? label = none) (size : Nat) :
    ∃ q, Passage env [] (PrintInt.writeRegs t) (fun _ => False)
      ((t.writeCall label size).map .instr ++ rest, p) (rest, q) := by
  have hstart : Passage env [] (PrintInt.writeRegs t) (fun _ => False)
    ((t.writeCall label size).map .instr ++ rest, p)
    ((t.writeCall label size).map .instr ++ rest, p) := .refl _
  cases t with
  | bits16 =>
    have hah : Target.bits16.view? "ah" = some ⟨1, 1⟩ := by decide
    have h₁ := hstart.movPart (x := 0x40) hah rfl (by decide)
    have h₂ := h₁.mov (d := "bx") (x := 1) (by decide) rfl (by decide)
    have h₃ := h₂.mov (d := "cx") (by decide) rfl (by decide)
    have h₄ := h₃.mov (d := "dx") (by decide) rfl (by decide)
    obtain ⟨q, h₅, -⟩ := h₄.trap
      (extract_replace ⟨1, 1⟩ (by decide) (by decide) (p.reg "ah") 0x40) rfl (by decide)
    exact ⟨q, h₅⟩
  | bits32 =>
    have h₁ := hstart.mov (d := "eax") (x := 4) (by decide) rfl (by decide)
    have h₂ := h₁.mov (d := "ebx") (x := 1) (by decide) rfl (by decide)
    have h₃ := h₂.mov (d := "ecx") (by decide) rfl (by decide)
    have h₄ := h₃.mov (d := "edx") (by decide) rfl (by decide)
    obtain ⟨q, h₅, -⟩ := h₄.trap rfl rfl (by decide)
    exact ⟨q, h₅⟩
  | bits64 =>
    have h₁ := hstart.mov (d := "rax") (x := 1) (by decide) rfl (by decide)
    have h₂ := h₁.mov (d := "rdi") (x := 1) (by decide) rfl (by decide)
    have h₃ := h₂.lea (d := "rsi") (by decide) (Cpu.base?_symbol env _ hlabel) (by decide)
    have h₄ := h₃.mov (d := "rdx") (by decide) rfl (by decide)
    obtain ⟨q, h₅, -⟩ := h₄.trap rfl rfl (by decide)
    exact ⟨q, h₅⟩

/-- Of the pool, writing a text changes only what is saved around it. -/
theorem writeRegs_apart (t : Target) :
    ∀ r ∈ t.intPool, r ∉ t.writeClobbers → physical r ∉ PrintInt.writeRegs t := by
  cases t <;> decide

/-- Code that stores nothing, between pushes and pops of some registers. -/
theorem runs_between_saves {code : List Line} {regs live : List Text} (env : Text → t.Word)
    (site : t.Word) (p : Process t) (hlive : ∀ r ∈ live, t.Stackable r)
    (hroom : live.length * t.wordSize ≤ 2 ^ (8 * t.wordSize))
    (hsp : physical t.stackPointer ∉ regs)
    (hcode : ∀ q rest, ∃ q', Passage env [] regs (fun _ => False) (code ++ rest, q) (rest, q')) :
    ∃ p', Runs env site (pushAll live ++ (code ++ popAll live)) p p' ∧
      (∀ r ∈ live, p'.reg r = p.reg r) ∧
      ∀ name, name ∉ regs → name ∉ live.map physical → name ≠ physical t.stackPointer →
        p'.cpu.regs name = p.cpu.regs name := by
  obtain ⟨q₁, h₁, -, hold₁, -⟩ := pushAll_passage env [] (code ++ popAll live) p [] live hlive
    (Holds.nil p _) hroom
  obtain ⟨q₂, h₂⟩ := hcode q₁ (popAll live)
  have hsp₂ : q₂.sp = q₁.sp := h₂.touches.reg hsp
  have hold₂ : q₂.Holds q₂.sp (live.reverse.map p.reg ++ []) := by
    rw [hsp₂]
    exact hold₁.touches h₂.touches fun _ _ hb => hb
  obtain ⟨q₃, h₃, -, hregs, -⟩ := pops_passage env [] [] q₂ p [] live.reverse
    (fun s hs => hlive s (List.mem_reverse.mp hs)) hold₂
  rw [List.append_nil] at h₃
  refine ⟨q₃, (h₁.callerReaches site).trans ((h₂.callerReaches site).trans (h₃.callerReaches site)),
    fun r hr => hregs r (List.mem_reverse.mpr hr), fun name hname hnot hne => ?_⟩
  rw [h₃.touches.regs name (by simpa [hne] using hnot), h₂.touches.regs name hname,
    h₁.touches.regs name (by simpa using hne)]

/-- A print of a text runs, and gives every register that is in use its contents back. -/
theorem PrintCode.runs_text (hcode : PrintCode t f v is) (hkind : v.kind = .string)
    (env : Text → t.Word) (site : t.Word) (p : Process t) (hr : r ∈ t.intPool)
    (huse : f.uses .int r = true) :
    ∃ p', Runs env site (is.map .instr) p p' ∧ p'.reg r = p.reg r := by
  cases hcode with
  | single _ hne | narrowed _ _ _ hne | loaded _ hne => exact absurd hkind hne
  | register hreg => simp [Value.isRegister, hkind] at hreg
  | text label _ hlabel =>
    have hname : part? label = none := by
      obtain ⟨n, rfl⟩ := hlabel
      refine part?_of_length ?_
      rw [Emit.generatedName, List.append_assoc, List.length_append]
      exact Nat.lt_add_right _ (by decide)
    have hlen : (t.writeClobbers.filter (f.uses .int)).length ≤ t.writeClobbers.length :=
      List.length_filter_le ..
    have hlive : ∀ s, s ∈ t.writeClobbers.filter (f.uses .int) ↔
        s ∈ t.writeClobbers ∧ f.uses .int s = true := fun s => List.mem_filter
    generalize t.writeClobbers.filter (f.uses .int) = live at hlen hlive ⊢
    have hpool : ∀ s ∈ live, s ∈ t.intPool := fun s hs =>
      t.writeClobbers_subset s ((hlive s).mp hs).1
    have hroom : live.length * t.wordSize ≤ 2 ^ (8 * t.wordSize) := by
      refine (Nat.mul_le_mul_right _ hlen).trans ?_
      cases t <;> decide
    obtain ⟨p', hrun, hsaved, hother⟩ := runs_between_saves env site p
      (fun s hs => ⟨t.view?_intPool (hpool s hs), (t.physical_intPool s (hpool s hs)).1⟩) hroom
      (by cases t <;> decide) fun q rest =>
        writeCall_passage env q rest hname (v.text.length + 1)
    have hlines : (live.map Instr.push ++ t.writeCall label (v.text.length + 1) ++
        live.reverse.map Instr.pop).map Line.instr =
        pushAll live ++ ((t.writeCall label (v.text.length + 1)).map .instr ++ popAll live) := by
      rw [List.map_append, List.map_append, List.map_map, List.map_map, List.append_assoc]
      rfl
    refine ⟨p', hlines ▸ hrun, ?_⟩
    -- A register that is in use is saved, unless writing leaves it alone.
    by_cases hin : r ∈ live
    · exact hsaved r hin
    have hnot : r ∉ t.writeClobbers := fun h => hin ((hlive r).mpr ⟨h, huse⟩)
    refine hother _ (writeRegs_apart t r hr hnot) (fun hmem => ?_) (t.physical_intPool r hr).1
    obtain ⟨s, hs, heq⟩ := List.mem_map.mp hmem
    exact hin (t.physical_injOn s (hpool s hs) r hr heq ▸ hs)

/-! ## A process that shows what is lost -/

/-- Addresses near the start of memory. -/
def lowEnv (t : Target) (name : Text) : t.Word :=
  if name = "print_buffer" then BitVec.ofNat _ 0x100
  else if name = "float_buf" then BitVec.ofNat _ 0x200
  else BitVec.ofNat _ 0x180

/-- All registers are zero, so the stack goes down from the end of memory.  The system answers
with one. -/
def blank (t : Target) : Process t where
  cpu := ⟨fun _ => 0, fun a => if a = BitVec.ofNat _ 0x180 then 10 else 0⟩
  flags := .undefined
  output := []
  stores := []
  answers := fun _ => 1

theorem two_pow_le (t : Target) : 2 ^ 16 ≤ 2 ^ (8 * t.wordSize) := by
  cases t <;> decide

theorem blank_layout (t : Target) : PrintLayout (lowEnv t) (blank t) := by
  have hword : 16 * t.wordSize ≤ 128 := by cases t <;> decide
  have hpow := two_pow_le t
  have hlow : ∀ {a n : Nat} {b : t.Word}, a + n ≤ 0x300 → Within (BitVec.ofNat _ a) n b →
      ¬ Below (blank t).sp (16 * t.wordSize) b := by
    intro a n b han hb
    have hzero : Within ((blank t).sp + BitVec.ofNat _ a) n b := by
      rwa [show (blank t).sp = 0 from rfl, zero_add]
    exact hzero.add.not_below (by omega)
  refine ⟨fun b hb => hlow (by decide) hb, fun b hb => hlow (by decide) hb, if_pos rfl,
    hlow (n := 1) (a := 0x180) (by decide) ⟨0, by decide, (BitVec.add_zero _).symm⟩, ?_⟩
  have hbehind : lowEnv t "newline" = lowEnv t "print_buffer" + BitVec.ofNat _ 0x80 :=
    BitVec.ofNat_add 0x100 0x80
  rw [hbehind]
  exact Within.not_of_le (by decide) (by omega)

theorem Leftover.ne_zero {x : t.Word} (h : Leftover (lowEnv t) (blank t) x) : x ≠ 0 := by
  have hpow := two_pow_le t
  have hne : ∀ n, 0 < n → n < 0x300 → BitVec.ofNat (8 * t.wordSize) n ≠ 0 := by
    intro n hpos hlt hzero
    have hnat := congrArg BitVec.toNat hzero
    rw [BitVec.toNat_ofNat, Nat.mod_eq_of_lt (by omega)] at hnat
    exact hpos.ne' hnat
  cases h with
  | length n hpos hlt hx => exact hx ▸ hne n hpos (by omega)
  | newline hx => exact hx ▸ hne 0x180 (by decide) (by decide)
  | start hx =>
    obtain ⟨k, hk, rfl⟩ := hx
    rw [show lowEnv t "float_buf" = BitVec.ofNat _ 0x200 from rfl, ← BitVec.ofNat_add]
    exact hne _ (by omega) (by omega)
  | answer k hx =>
    rw [hx, show (blank t).answers k = 1#64 from rfl]
    cases t <;> decide

/-! ## In a run -/

namespace Engine

/-- A granted print runs to its end, unless the value is a byte without a name.  A register of the
pool that is in use, other than the one of the value, comes out of it as it was for a text, and for
a number unless writing overwrites it and the routine does not give it back. -/
theorem print_keeps_iff (t : Target) (strict : Bool) (qs : List Request) (v : Value) (r : Text)
    (hgrant : ((Engine.new t strict).serveAll qs).reply (.print v) = .ok .done)
    (hv : v.kind = .string ∨ v.isFloat = true ∨ v.Readable t)
    (hfree : ((Engine.new t strict).serveAll qs).regs.firstFree? .int ≠ none ∨ v.kind = .string ∨
      v.isFloat = true ∨ v.isRegister = true)
    (hr : r ∈ t.intPool) (huse : r ∈ ((Engine.new t strict).serveAll qs).regs.inUse .int)
    (hown : v.isRegister = true → v.name ≠ r) :
    ∃ is : List Instr,
      (((Engine.new t strict).serveAll qs).serve (.print v)).body =
        ((Engine.new t strict).serveAll qs).body ++ is.map .instr ∧
      (∀ env site p, PrintLayout (t := t) env p →
        ((∃ p', Runs env site (is.map .instr) p p') ↔ ¬ v.Nameless t)) ∧
      ((∀ env site p, PrintLayout (t := t) env p →
          ∃ p', Runs env site (is.map .instr) p p' ∧ p'.reg r = p.reg r) ↔
        ¬ v.Nameless t ∧ (v.kind = .string ∨ r ∉ t.writeClobbers ∨ r ∈ PrintInt.saved t)) := by
  obtain ⟨is, hcode, hbody⟩ := body_print t strict qs hgrant
  have huses : ((Engine.new t strict).serveAll qs).regs.uses .int r = true := by
    simpa [RegisterFile.uses] using huse
  have hnamed : ∀ {env site} {p : Process t}, (∃ p', Runs env site (is.map .instr) p p') →
      ¬ v.Nameless t := by
    rintro env site p ⟨p', hrun⟩ hnameless
    exact hcode.not_runs hnameless hrun
  refine ⟨is, hbody, ?_⟩
  by_cases hkind : v.kind = .string
  · have hkeeps : ∀ env site p, ∃ p', Runs env site (is.map .instr) p p' ∧ p'.reg r = p.reg r :=
      fun env site p => hcode.runs_text hkind env site p hr huses
    have hruns : ∀ env site p, ∃ p', Runs env site (is.map .instr) p p' :=
      fun env site p => (hkeeps env site p).imp fun _ h => h.1
    have hname : ¬ v.Nameless t := hnamed (hruns (lowEnv t) 0 (blank t))
    exact ⟨fun env site p _ => iff_of_true (hruns env site p) hname,
      fun _ => ⟨hname, .inl hkind⟩, fun _ env site p _ => hkeeps env site p⟩
  have hscratch : v.isRegister = false → v.isFloat = false → ∀ tmp,
      ((Engine.new t strict).serveAll qs).regs.Hands .int tmp → tmp ≠ r := by
    rintro hreg hfloat tmp htmp rfl
    obtain hfirst | ⟨-, hnone, -⟩ := htmp.cases
    · exact RegisterFile.firstFree?_notMem hfirst huse
    · simp [hkind, hreg, hfloat, hnone] at hfree
  have houtcome : ¬ v.Nameless t → ∀ env site p, PrintLayout (t := t) env p →
      ∃ p', Runs env site (is.map .instr) p p' ∧ NumberOutcome env r p p' :=
    fun hname env site p h => hcode.runs_number h site hkind (hv.resolve_left hkind) hname
      (pool_int t strict qs) hr hown hscratch
  have hlost : (v.kind = .string ∨ r ∉ t.writeClobbers ∨ r ∈ PrintInt.saved t) ↔
      r ∉ PrintInt.lost t := by
    simp [PrintInt.lost, hkind, imp_iff_not_or]
  rw [hlost]
  refine ⟨fun env site p h => ⟨hnamed, fun hname => ?_⟩, fun hkeeps => ?_, ?_⟩
  · exact (houtcome hname env site p h).imp fun _ h => h.1
  · obtain ⟨p', hrun, hkept⟩ := hkeeps (lowEnv t) 0 (blank t) (blank_layout t)
    refine ⟨hnamed ⟨p', hrun⟩, fun hin => ?_⟩
    obtain ⟨q', hrun', houtcome'⟩ :=
      houtcome (hnamed ⟨p', hrun⟩) (lowEnv t) 0 (blank t) (blank_layout t)
    rw [hrun.unique hrun'] at hkept
    exact (houtcome'.2 hin).ne_zero hkept
  · rintro ⟨hname, hnot⟩ env site p h
    exact (houtcome hname env site p h).imp fun _ h => ⟨h.1, h.2.1 hnot⟩

/-- The second register that was allocated does not survive a print of the first. -/
theorem print_keeps_iff_second :
    let e := (Engine.new .bits32 true).serveAll [.alloc "int32", .alloc "int32"]
    let first := Value.ofRegister "ebx" "int32" true
    (e.serve (.print first)).body = e.body ++ [.op .push [.reg "ebx"],
        .op .call [.sym "print_int"], .op .add [.reg "esp", .num 4]] ∧
      ∃ env site p, PrintLayout (t := .bits32) env p ∧
        ∃ p', Runs env site [.op .push [.reg "ebx"], .op .call [.sym "print_int"],
          .op .add [.reg "esp", .num 4]] p p' ∧ p'.reg "ecx" ≠ p.reg "ecx" := by
  intro e first
  have hlines : (e.serve (.print first)).body = e.body ++ [.op .push [.reg "ebx"],
      .op .call [.sym "print_int"], .op .add [.reg "esp", .num 4]] := by
    decide +kernel
  obtain ⟨is, hbody, hruns, hiff⟩ := print_keeps_iff .bits32 true [.alloc "int32", .alloc "int32"]
    first "ecx" (by decide +kernel) (.inr (.inr (.register rfl (by decide))))
    (.inl (by decide +kernel)) (by decide) (by decide +kernel) (fun _ => by decide)
  have his := List.append_cancel_left (hbody.symm.trans hlines)
  rw [his] at hruns hiff
  refine ⟨hlines, ?_⟩
  by_contra hall
  have hkeeps := hiff.mp fun env site p h => ?_
  · have := hkeeps.2
    revert this
    decide
  · obtain ⟨p', hrun⟩ := (hruns env site p h).mpr (by decide)
    refine ⟨p', hrun, ?_⟩
    by_contra hne
    exact hall ⟨env, site, p, h, p', hrun, hne⟩

end Engine

end Assembly
