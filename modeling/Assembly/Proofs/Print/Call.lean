import Assembly.Proofs.Machine.Caller
import Assembly.Proofs.Routine.PrintFloat

/-!
# Calls of the printing routines

A caller that has pushed an argument calls a routine and takes the argument off the stack again.
The registers that neither it nor the routine changes are as before, and those of the pool that the
routine does not give back hold what is left of a system call.
-/

namespace Assembly

open Process Routine

variable {t : Target}

/-- The newline is a byte in memory.  It and the buffers of the routines are apart from the stack,
as far down as prints push, and the newline is in no buffer. -/
structure PrintLayout (env : Text → t.Word) (p : Process t) : Prop where
  buffer : ∀ b, Within (env "print_buffer") 32 b → ¬ Below p.sp (16 * t.wordSize) b
  floatBuffer : ∀ b, Within (env "float_buf") 64 b → ¬ Below p.sp (16 * t.wordSize) b
  newline : p.mem (env "newline") = 10
  newline_stack : ¬ Below p.sp (16 * t.wordSize) (env "newline")
  newline_buffer : ¬ Within (env "print_buffer") 32 (env "newline")

/-- What a printing routine leaves in a register: a length, an address, or an answer of the
system. -/
inductive Leftover (env : Text → t.Word) (p : Process t) (x : t.Word) : Prop
  | length (n : Nat) (hpos : 0 < n) (hlt : n < 64) (hx : x = BitVec.ofNat _ n)
  | newline (hx : x = env "newline")
  | start (hx : Within (env "float_buf") 64 x)
  | answer (k : Nat) (hx : x = (p.answers k).setWidth _)

theorem Leftover.of_answers {env : Text → t.Word} {p q : Process t} {x : t.Word}
    (h : Leftover env q x) (ha : ∀ k, ∃ j, q.answers k = p.answers j) : Leftover env p x := by
  cases h with
  | length n hpos hlt hx => exact .length n hpos hlt hx
  | newline hx => exact .newline hx
  | start hx => exact .start hx
  | answer k hx =>
    obtain ⟨j, hj⟩ := ha k
    exact .answer j (hx.trans (congrArg _ hj))

namespace Builtin

/-- The buffer of a routine. -/
def buffer (env : Text → t.Word) : Builtin → t.Word → Prop
  | .printInt => Within (env "print_buffer") 32
  | .printFloat => Within (env "float_buf") 64

variable {env : Text → t.Word} {p : Process t}

theorem returns (b : Builtin) (hint : PrintInt.Layout env p) (hfloat : PrintFloat.Layout env p) :
    ∃ q, Returns env (b.code t) p q ∧
      Touches (PrintInt.scratch t) (fun c => b.buffer env c ∨ Below p.sp (8 * t.wordSize) c) p q ∧
      ∀ r ∈ PrintInt.lost t, Leftover env p (q.reg r) := by
  cases b with
  | printInt =>
    obtain ⟨q, hret, -, htouches, hlost⟩ := PrintInt.returns hint
    refine ⟨q, hret, htouches.mono (List.Subset.refl _) fun c hc =>
      hc.imp_right fun h => h.mono (by omega), fun r hr => ?_⟩
    rcases hlost r hr with h | h | ⟨k, h⟩
    · exact .length 1 (by decide) (by decide) h
    · exact .newline h
    · exact .answer k h
  | printFloat =>
    obtain ⟨q, hret, htouches, hleft⟩ := PrintFloat.returns hfloat
    refine ⟨q, hret, htouches, fun r hr => ?_⟩
    rcases hleft r hr with ⟨n, hpos, hlt, h⟩ | h | ⟨k, h⟩
    · exact .length n hpos hlt h
    · exact .start h
    · exact .answer k h

end Builtin

/-! ## The call -/

variable {env : Text → t.Word} {p p₁ : Process t} {regs : List Text} {k : Nat}

/-- A process that has pushed the return address can run the routines. -/
theorem PrintLayout.pushed (h : PrintLayout env p) (ht : Touches regs (Below p.sp k) p p₁)
    (hsp : p₁.sp = p.sp - BitVec.ofNat _ k) (hk : k ≤ 8 * t.wordSize) :
    PrintInt.Layout env p₁ ∧ PrintFloat.Layout env p₁ := by
  have hbelow : ∀ {b n}, Below p₁.sp n b → n ≤ 8 * t.wordSize → Below p.sp (16 * t.wordSize) b := by
    intro b n hb hn
    rw [hsp] at hb
    exact hb.sub.mono (by omega)
  refine ⟨⟨fun b hb hin => h.buffer b hb (hbelow hin (by omega)), ?_,
    fun hin => h.newline_stack (hbelow hin (by omega)), h.newline_buffer⟩,
    ⟨fun b hb hin => h.floatBuffer b hb (hbelow hin le_rfl)⟩⟩
  rw [ht.mem _ fun hin => h.newline_stack (hin.mono (by omega)), h.newline]

/-- The call, with the argument and nothing else of the caller on the stack. -/
theorem call_step (h : PrintLayout env p) (ht : Touches regs (Below p.sp k) p p₁)
    (hsp : p₁.sp = p.sp - BitVec.ofNat _ k) (hk : k ≤ 7 * t.wordSize) (site : t.Word) (b : Builtin)
    (rest : List Line) :
    ∃ q, CallerStep env site (Line.op .call [.sym b.label] :: rest, p₁) (rest, q) ∧
      (∀ name, name ∉ PrintInt.scratch t → name ≠ physical t.stackPointer →
        q.cpu.regs name = p₁.cpu.regs name) ∧
      ∀ r ∈ PrintInt.lost t, Leftover env p (q.reg r) := by
  have hroom : (([] : List t.Word).length + 1) * t.wordSize ≤ 2 ^ (8 * t.wordSize) := by
    cases t <;> decide
  have hfit : t.wordSize + 8 * t.wordSize ≤ 2 ^ (8 * t.wordSize) := by cases t <;> decide
  have hnot : physical t.stackPointer ∉ PrintInt.scratch t := by cases t <;> decide
  have hsp₂ : (p₁.push site).sp = p.sp - BitVec.ofNat _ (k + t.wordSize) := by
    rw [sp_push, hsp, BitVec.ofNat_add, sub_sub]
  have ht₂ : Touches (physical t.stackPointer :: regs) (Below p.sp (k + t.wordSize)) p
      (p₁.push site) := by
    refine (ht.mono (List.subset_cons_self _ _) fun b hb => hb.mono (by omega)).trans
      (touches_push List.mem_cons_self (fun b hb => ?_) site)
    rw [hsp] at hb
    exact (hb.below le_rfl).sub
  have hold : (p₁.push site).Holds (p₁.push site).sp [site] := (Holds.nil p₁ _).push site hroom
  obtain ⟨hint, hfloat⟩ := h.pushed ht₂ hsp₂ (by omega)
  obtain ⟨q, hret, htouches, hlost⟩ := b.returns hint hfloat
  have hspq : q.sp = (p₁.push site).sp := htouches.reg hnot
  have hbuffer : ∀ c, b.buffer env c → ¬ Below p.sp (16 * t.wordSize) c := by
    cases b with
    | printInt => exact h.buffer
    | printFloat => exact h.floatBuffer
  have hkept : q.Holds q.sp [site] := by
    rw [hspq]
    refine hold.touches htouches fun c hc hor => ?_
    have hsite : Within (p₁.push site).sp t.wordSize c := by simpa using hc
    rcases hor with hdata | hbelow
    · rw [hsp₂] at hsite
      exact hbuffer c hdata ((hsite.below (by omega)).mono (by omega))
    · exact hsite.not_below hfit hbelow
  refine ⟨q.drop, .call b hret hkept.top, fun name hname hne => ?_, fun r hr => ?_⟩
  · have hdrop : q.drop.cpu.regs name = q.cpu.regs name := Cpu.regs_set_of_ne q.cpu _ hne
    rw [hdrop, htouches.regs name hname]
    exact Cpu.regs_set_of_ne p₁.cpu _ hne
  · have hdrop : q.drop.reg r = q.reg r := reg_set_of_ne q _ (PrintInt.lost_apart t r hr).2.1
    rw [hdrop]
    exact (hlost r hr).of_answers ht₂.answers

/-- Code that pushes an argument, calls a routine and takes the argument off the stack. -/
theorem call_runs (h : PrintLayout env p) {code : List Line} (site : t.Word) (b : Builtin) (n : Nat)
    (hcode : Passage env [] regs (Below p.sp k)
      (code ++ [Line.op .call [.sym b.label], .instr (t.drop n)], p)
      ([Line.op .call [.sym b.label], .instr (t.drop n)], p₁))
    (hsp : p₁.sp = p.sp - BitVec.ofNat _ k) (hk : k ≤ 7 * t.wordSize) :
    ∃ p', Runs env site (code ++ [Line.op .call [.sym b.label], .instr (t.drop n)]) p p' ∧
      (∀ name, name ∉ regs → name ∉ PrintInt.scratch t → name ≠ physical t.stackPointer →
        p'.cpu.regs name = p.cpu.regs name) ∧
      ∀ r ∈ PrintInt.lost t, Leftover env p (p'.reg r) := by
  obtain ⟨q, hcall, hregs, hlost⟩ := call_step h hcode.touches hsp hk site b [.instr (t.drop n)]
  have hstart : Passage env [] [physical t.stackPointer] (fun _ => False)
    ([Line.op .add [.reg t.stackPointer, .num n]], q)
    ([Line.op .add [.reg t.stackPointer, .num n]], q) := .refl _
  obtain ⟨f, hdrop⟩ := hstart.addPart t.view?_stackPointer rfl List.mem_cons_self
  refine ⟨_, (hcode.callerReaches site).trans (.head hcall (hdrop.callerReaches site)),
    fun name hname hscratch hne => ?_, fun r hr => ?_⟩
  · rw [hdrop.touches.regs name (by simpa using hne), hregs name hscratch hne,
      hcode.touches.regs name hname]
  · rw [hdrop.touches.reg (by simpa using (PrintInt.lost_apart t r hr).2.1)]
    exact hlost r hr

end Assembly
