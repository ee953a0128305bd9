import Assembly.Proofs.Engine.Refusal
import Assembly.Proofs.Register.Roster

/-!
# Scratch registers and the registers of others

A scope takes a register, works with it, and takes it back whether or not the work was
refused.  If the register was free, the registers in use are afterwards what they were.

A permissive engine without a free register hands out the first one of the pool, which is in
use, and marks nothing.  The scope takes it back all the same, so that it counts as free
while its owner still has the handle.  `scope_keeps_iff` says that this is the one case in
which a scope changes the registers in use.
-/

namespace Assembly

open Move

namespace RegisterFile

theorem eq_of_inUse {f g : RegisterFile} (hkind : f.kind = g.kind)
    (h : ∀ c, f.inUse c = g.inUse c) : f = g := by
  obtain ⟨t, strict, int, float⟩ := f
  obtain ⟨t', strict', int', float'⟩ := g
  obtain ⟨rfl, rfl⟩ := Prod.mk.inj hkind
  cases h .int
  cases h .float
  rfl

/-- What a scope makes of a register file: the same file, or one in which the first register of
the pool, which was in use, is free. -/
inductive Scoped (f : RegisterFile) (c : RegClass) (g : RegisterFile) : Prop
  | kept (h : f.strict = true ∨ (f.firstFree? c).isSome = true) (hfile : g = f)
  | lost {r : Text} (hmode : f.strict = false) (hfull : f.firstFree? c = none)
    (hr : (f.pool c).head? = some r) (hfile : g = f.free c r)

theorem Scoped.inUse_iff {f g : RegisterFile} {c : RegClass} (h : Scoped f c g) :
    (∀ d, g.inUse d = f.inUse d) ↔ f.strict = true ∨ (f.firstFree? c).isSome = true := by
  cases h with
  | kept h hfile => exact iff_of_true (fun d => by rw [hfile]) h
  | @lost r hmode hfull hr hfile =>
    have hmem : r ∈ f.inUse c := by
      simpa [uses] using uses_of_firstFree?_eq_none hfull (List.mem_of_mem_head? hr)
    have hgone : r ∉ g.inUse c := by
      rw [hfile, free, inUse_setInUse]
      simp
    exact iff_of_false (fun hsame => hgone (hsame c ▸ hmem)) (by simp [hmode, hfull])

end RegisterFile

namespace Emit

variable {α β : Type} {e : Engine} {ms : List Move} {v : Value} {type : Text}

/-- The operation leaves the registers in use as it finds them. -/
def LeavesInUse (m : Emit α) (e : Engine) : Prop :=
  ∀ c, (m.run e).2.regs.inUse c = e.regs.inUse c

theorem LeavesInUse.regs {m : Emit α} (h : m.LeavesInUse e) : (e.makeAll (m e).2).regs = e.regs :=
  RegisterFile.eq_of_inUse (e.makeAll_regs_kind _) h

/-! ## The file after an operation -/

theorem run_bind {m : Emit α} {f : α → Emit β} {a : α} (h : m.Grants e a ms) :
    ((m >>= f).run e).2 = ((f a).run (e.makeAll ms)).2 := by
  rw [Grants] at h
  show e.makeAll ((m >>= f) e).2 = (e.makeAll ms).makeAll (f a (e.makeAll ms)).2
  rw [bind_apply, h, ← Engine.makeAll_append]

/-- What comes last and leaves the registers alone may be left out of account. -/
theorem regs_run_bind {m : Emit α} {f : α → Emit β}
    (hf : ∀ a e, ((f a).run e).2.regs = e.regs) : ((m >>= f).run e).2.regs = (m.run e).2.regs := by
  cases hm : m e with
  | mk answer made =>
    cases answer with
    | ok a =>
      rw [run_bind hm, hf]
      show _ = (e.makeAll (m e).2).regs
      rw [hm]
    | error x =>
      show (e.makeAll ((m >>= f) e).2).regs = (e.makeAll (m e).2).regs
      rw [bind_apply, hm]

theorem run_read_bind {f : Engine → Emit β} : ((read >>= f).run e).2 = ((f e).run e).2 :=
  run_bind (grants_read.mpr ⟨rfl, rfl⟩)

theorem run_instrs (is : List Instr) (e : Engine) : ((instrs is).run e).2.regs = e.regs :=
  e.regs_makeAll_instrs is

theorem run_release {r : Text} (h : e.regs.uses (TypePolicy.regClass type) r = true) :
    ((release (.ofRegister r type true)).run e).2.regs =
      e.regs.free (TypePolicy.regClass type) r := by
  have hrun := release_run (.ofRegister r type true) e
  rw [if_pos ⟨rfl, rfl, h⟩] at hrun
  show (e.makeAll (release _ e).2).regs = _
  rw [hrun]
  rfl

/-! ## Scopes -/

theorem withTemp_scoped {body : Value → Emit α}
    (hbody : ∀ r ms, (allocReg type).Grants e r ms → (body r).LeavesInUse (e.makeAll ms)) :
    e.regs.Scoped (TypePolicy.regClass type) ((withTemp type body).run e).2.regs := by
  have hrun := allocRegAs_run type true e
  cases ha : e.regs.alloc? (TypePolicy.regClass type) with
  | none =>
    rw [ha] at hrun
    refine .kept (.inl (RegisterFile.alloc?_eq_none_iff.mp ha).1) ?_
    show (e.makeAll ((allocReg type >>= _) e).2).regs = _
    rw [bind_apply, allocReg, hrun]
    rfl
  | some ag =>
    obtain ⟨⟨r, fresh⟩, g⟩ := ag
    rw [ha] at hrun
    have hgrant : (allocReg type).Grants e (.ofRegister r type true) _ := hrun
    obtain ⟨_, -, -, htaken⟩ := allocRegAs_moves hgrant
    have hleaves := hbody _ _ hgrant
    generalize hms : Move.take (TypePolicy.regClass type) :: _ ++ _ = ms at hgrant htaken hleaves
    have hg : (e.makeAll ms).regs = g := by
      rw [Engine.regs_makeAll, htaken]
      exact e.regs_take ha
    have hafter : ((withTemp type body).run e).2.regs = g.free (TypePolicy.regClass type) r := by
      rw [withTemp, run_bind hgrant]
      show ((e.makeAll ms).makeAll (_ ++ _)).regs = _
      rw [Engine.makeAll_append, ← hg, ← hleaves.regs]
      refine run_release ?_
      rw [hleaves.regs, hg]
      exact RegisterFile.uses_of_alloc? ha
    cases hfree : e.regs.firstFree? (TypePolicy.regClass type) with
    | some s =>
      rw [RegisterFile.alloc?_of_firstFree? hfree] at ha
      cases ha
      refine .kept (.inr (by rw [hfree]; rfl)) (hafter.trans ?_)
      exact RegisterFile.free_setInUse_append (RegisterFile.firstFree?_notMem hfree)
    | none =>
      rw [(RegisterFile.alloc?_of_full hfree ha).2] at hafter
      obtain hsome | ⟨hmode, -, hhead⟩ := RegisterFile.Hands.cases ⟨fresh, g, ha⟩
      · rw [hfree] at hsome
        cases hsome
      · exact .lost hmode hfree hhead hafter

theorem pushThroughTemp_scoped (v : Value) (type : Text) (e : Engine) :
    e.regs.Scoped .int ((pushThroughTemp v type).run e).2.regs := by
  rw [pushThroughTemp, run_read_bind, ← regClass_wordType e.target]
  exact withTemp_scoped fun _ _ _ _ => by rw [run_instrs]

theorem printInt_scoped (hreg : v.isRegister = false) :
    e.regs.Scoped .int ((printInt v).run e).2.regs := by
  obtain ⟨ms, hneed⟩ : ∃ ms, needPrintInt.Grants e () ms := ⟨_, need_printInt e⟩
  have hscope := pushThroughTemp_scoped v (e.target.typeOrWord v.type) (e.makeAll ms)
  rw [e.regs_makeAll_of_quiet (needPrintInt_quiet hneed)] at hscope
  rw [printInt, run_bind hneed, run_read_bind]
  rwa [if_neg (by simp [hreg]), regs_run_bind fun _ => run_instrs _, e.makeAll_target]

theorem printFloat_scoped (hreg : v.isRegister = false) :
    e.regs.Scoped .float ((printFloat v).run e).2.regs := by
  obtain ⟨ms, hneed⟩ : ∃ ms, needPrintFloat.Grants e () ms := ⟨_, need_printFloat e⟩
  obtain ⟨w, ns, hw, hwreg⟩ : ∃ w ns, (materialize v v.floatType).Grants (e.makeAll ms) w ns ∧
      w.isRegister = false := by
    have hrun := materialize_run v v.floatType (e.makeAll ms)
    split at hrun
    · exact ⟨_, _, hrun, rfl⟩
    · exact ⟨_, _, hrun, hreg⟩
  have hregs : ((e.makeAll ms).makeAll ns).regs = e.regs := by
    rw [Engine.regs_makeAll_of_quiet _ (materialize_quiet hw),
      e.regs_makeAll_of_quiet (needPrintFloat_quiet hneed)]
  have hscope : ((e.makeAll ms).makeAll ns).regs.Scoped (TypePolicy.regClass "float")
      ((withTemp "float" fun tmp => instrs (e.target.narrow tmp.name w v.floatType ::
        e.target.singlePush tmp.name)).run ((e.makeAll ms).makeAll ns)).2.regs :=
    withTemp_scoped fun r ns' _ c => by rw [run_instrs]
  have hclass : TypePolicy.regClass "float" = .float := by decide
  rw [hregs, hclass] at hscope
  rw [printFloat, run_bind hneed, run_read_bind, run_bind hw]
  rwa [if_neg (by simp [hwreg]), regs_run_bind fun _ => run_instrs _, e.makeAll_target]

/-- A number or a memory operand is printed through a scratch register of its class. -/
theorem print_scoped (hkind : v.kind = .number ∨ v.isMemory = true) :
    e.regs.Scoped v.regClass ((print v).run e).2.regs := by
  have hstring : v.kind ≠ .string := by
    intro h
    simp [Value.isMemory, h] at hkind
  have hreg : v.isRegister = false := by
    by_contra h
    simp only [Value.isRegister, decide_eq_false_iff_not, not_not] at h
    simp [Value.isMemory, h] at hkind
  rw [print, if_neg hstring, Value.regClass, TypePolicy.regClass]
  show RegisterFile.Scoped _ (if v.isFloat = true then _ else _) _
  split
  · exact printFloat_scoped hreg
  · exact printInt_scoped hreg

end Emit

/-! ## In a run -/

open Emit

/-- A scope leaves the registers in use as they were, whatever is done in it, granted or refused,
as long as that leaves them as it finds them, and so does the print of a number or of a memory
operand: in a strict engine always, and in a permissive one as long as a register of the class is
free.  If none is, the first register of the pool is in use before and free afterwards. -/
theorem Engine.scope_keeps_iff (t : Target) (strict : Bool) (qs : List Request) {α : Type}
    (type : Text) (body : Value → Emit α)
    (hbody : ∀ r ms, (allocReg type).Grants ((Engine.new t strict).serveAll qs) r ms →
      (body r).LeavesInUse (((Engine.new t strict).serveAll qs).makeAll ms)) :
    let e := (Engine.new t strict).serveAll qs
    let c := TypePolicy.regClass type
    ((withTemp type body).LeavesInUse e ↔
        strict = true ∨ (e.regs.firstFree? c).isSome = true) ∧
      (strict = false → e.regs.firstFree? c = none → ∃ r, (e.regs.pool c).head? = some r ∧
        r ∈ e.regs.inUse c ∧ ((withTemp type body).run e).2.regs = e.regs.free c r) ∧
      ∀ v : Value, v.kind = .number ∨ v.isMemory = true →
        ((∀ d, (e.serve (.print v)).regs.inUse d = e.regs.inUse d) ↔
          strict = true ∨ (e.regs.firstFree? v.regClass).isSome = true) := by
  intro e c
  have hmode : e.regs.strict = strict := Engine.serveAll_regs_strict _ qs
  have hscope : e.regs.Scoped c ((withTemp type body).run e).2.regs := withTemp_scoped hbody
  refine ⟨hmode ▸ hscope.inUse_iff, fun hperm hfull => ?_, fun v hkind => ?_⟩
  · cases hscope with
    | kept h => simp [hmode, hperm, hfull] at h
    | @lost r _ _ hr hfile =>
      have hmem := RegisterFile.uses_of_firstFree?_eq_none hfull (List.mem_of_mem_head? hr)
      exact ⟨r, hr, by simpa [RegisterFile.uses] using hmem, hfile⟩
  · have hserve : e.serve (.print v) = ((print v).run e).2 := by
      show e.makeAll ((Reply.ofUnit <$> print v) e).2 = _
      rw [map_apply]
      rfl
    rw [hserve, ← hmode]
    exact (print_scoped hkind).inUse_iff

/-- In a permissive engine with all registers in use, a scope whose work is refused frees the first
register, and so does the print of a number.  With a register left, they free nothing else. -/
theorem Engine.scope_keeps_iff_exhausted :
    let full := List.replicate 3 (Request.alloc "int16")
    let spare := List.replicate 2 (Request.alloc "int16")
    let e := (Engine.new .bits16 false).serveAll full
    let e' := (Engine.new .bits16 false).serveAll spare
    let stop : Value → Emit Unit := fun _ => throw (.raised "stopped")
    let scope := withTemp "int16" stop
    let owned : List Text := ["bx", "cx", "dx"]
    (e.regs.inUse .int = owned ∧ (scope.run e).2.regs.inUse .int = owned.tail ∧
        ¬ ∀ d, (e.serve (.print (.ofInt 5))).regs.inUse d = e.regs.inUse d) ∧
      scope.LeavesInUse e' ∧
        ∀ d, (e'.serve (.print (.ofInt 5))).regs.inUse d = e'.regs.inUse d := by
  intro full spare e e' stop scope owned
  have hstop : ∀ (e : Engine) r ms, (allocReg "int16").Grants e r ms →
      (stop r).LeavesInUse (e.makeAll ms) := fun _ _ _ _ _ => rfl
  have hfull := scope_keeps_iff .bits16 false full "int16" stop (hstop e)
  have hspare := scope_keeps_iff .bits16 false spare "int16" stop (hstop e')
  obtain ⟨r, hr, -, hfile⟩ := hfull.2.1 rfl (by decide +kernel)
  have hfirst : (e.regs.pool (TypePolicy.regClass "int16")).head? = some "bx" := by decide +kernel
  cases hfirst.symm.trans hr
  refine ⟨⟨by decide +kernel, ?_, ?_⟩, hspare.1.mpr (by decide +kernel), ?_⟩
  · rw [hfile]
    decide +kernel
  · rw [hfull.2.2 (.ofInt 5) (.inl rfl)]
    decide +kernel
  · exact (hspare.2.2 (.ofInt 5) (.inl rfl)).mpr (by decide +kernel)

end Assembly
