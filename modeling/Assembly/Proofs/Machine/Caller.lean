import Assembly.Engine.State
import Assembly.Proofs.Machine.Passage

/-!
# Callers of the routines

Straight code that may call the routines of the runtime.  A call pushes the address behind it, lets
the routine run to its return, and goes on if the return finds this address on the stack.  Such code
has at most one outcome.
-/

namespace Assembly.Process

variable {t : Target} {env : Text → t.Word} {site : t.Word} {code rest : List Line}
  {p q q' : Process t}

/-- One line of a caller.  There is no label to jump to. -/
inductive CallerStep (env : Text → t.Word) (site : t.Word) :
    List Line × Process t → List Line × Process t → Prop
  | line {s s' : List Line × Process t} (h : step env [] s = some s') : CallerStep env site s s'
  | call (b : Builtin) {rest : List Line} {p q : Process t}
    (hret : Returns env (b.code t) (p.push site) q) (htop : q.top = site) :
    CallerStep env site (Line.op .call [.sym b.label] :: rest, p) (rest, q.drop)

/-- The code of a caller leads from one place to another. -/
def CallerReaches (env : Text → t.Word) (site : t.Word) :
    List Line × Process t → List Line × Process t → Prop :=
  Relation.ReflTransGen (CallerStep env site)

/-- The code of a caller runs to its end. -/
def Runs (env : Text → t.Word) (site : t.Word) (code : List Line) (p q : Process t) : Prop :=
  CallerReaches env site (code, p) ([], q)

theorem Passage.callerReaches {regs : List Text} {area : t.Word → Prop}
    {s s' : List Line × Process t} (h : Passage env [] regs area s s') (site : t.Word) :
    CallerReaches env site s s' :=
  Relation.ReflTransGen.mono (fun _ _ => CallerStep.line) _ _ h.reaches

/-- Code that runs to its end has a first line that runs. -/
theorem Runs.exec_head {i : Instr} (h : Runs env site (.instr i :: rest) p q)
    (hi : i.mnemonic.jumps = false) (hcall : i.mnemonic ≠ .call) :
    ∃ p', p.exec env i = some p' := by
  obtain heq | ⟨s, hs, -⟩ := h.cases_head
  · cases heq
  generalize hline : (Line.instr i :: rest, p) = s₀ at hs
  cases hs with
  | line hs =>
    rw [← hline, step_instr hi, Option.map_eq_some_iff] at hs
    obtain ⟨p', hp', -⟩ := hs
    exact ⟨p', hp'⟩
  | call b =>
    cases hline
    exact absurd rfl hcall

/-! ## At most one outcome -/

/-- Of two ends of one run neither goes on, so they are the same. -/
theorem eq_of_ends {α : Type} {r : α → α → Prop} {a b c : α} (hr : Relator.RightUnique r)
    (hb : Relation.ReflTransGen r a b) (hc : Relation.ReflTransGen r a c) (hendb : ∀ d, ¬ r b d)
    (hendc : ∀ d, ¬ r c d) : b = c := by
  rcases Relation.ReflTransGen.total_of_right_unique hr hb hc with h | h
  · obtain heq | ⟨d, hd, -⟩ := h.cases_head
    · exact heq
    · exact absurd hd (hendb d)
  · obtain heq | ⟨d, hd, -⟩ := h.cases_head
    · exact heq.symm
    · exact absurd hd (hendc d)

theorem Returns.unique (h : Returns env code p q) (h' : Returns env code p q') : q = q' := by
  obtain ⟨rest, h⟩ := h
  obtain ⟨rest', h'⟩ := h'
  have hstep : Relator.RightUnique fun s s' : List Line × Process t => step env code s = some s' :=
    fun s s₁ s₂ h₁ h₂ => Option.some.inj (h₁.symm.trans h₂)
  have hret : ∀ (rest : List Line) (q : Process t) (s : List Line × Process t),
      ¬ step env code (Line.op .ret [] :: rest, q) = some s := by
    intro rest q s hs
    cases hs
  exact congrArg Prod.snd (eq_of_ends hstep h h' (hret rest q) (hret rest' q'))

theorem eq_of_label_eq {b b' : Builtin} (h : b.label = b'.label) : b = b' := by
  cases b <;> cases b' <;> first | rfl | exact absurd h (by decide)

theorem CallerStep.unique : Relator.RightUnique (CallerStep env site) := by
  intro s s₁ s₂ h₁ h₂
  cases h₁ with
  | line h₁ =>
    generalize hs : s = s₀ at h₂
    cases h₂ with
    | line h₂ => exact Option.some.inj (h₁.symm.trans (hs ▸ h₂))
    | call b =>
      rw [hs] at h₁
      cases h₁
  | call b hret htop =>
    generalize hs : (_, _) = s₀ at h₂
    cases h₂ with
    | line h₂ =>
      rw [← hs] at h₂
      cases h₂
    | call b' hret' htop' =>
      simp only [Prod.mk.injEq, List.cons.injEq, Line.op, Line.instr.injEq, Instr.mk.injEq,
        Operand.sym.injEq, and_true, true_and] at hs
      obtain ⟨⟨hlabel, rfl⟩, rfl⟩ := hs
      obtain rfl := eq_of_label_eq hlabel
      rw [hret.unique hret']

theorem Runs.unique (h : Runs env site code p q) (h' : Runs env site code p q') : q = q' := by
  have hend : ∀ (q : Process t) (s : List Line × Process t), ¬ CallerStep env site ([], q) s := by
    intro q s hs
    cases hs with
    | line hs => cases hs
  exact congrArg Prod.snd (eq_of_ends CallerStep.unique h h' (hend q) (hend q'))

end Assembly.Process
