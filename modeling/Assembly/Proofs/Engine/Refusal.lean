import Assembly.Proofs.Engine.Effects
import Assembly.Proofs.Engine.Part

/-!
# Operations that are refused

`m.Refuses e x ms` says that the operation `m`, asked of the engine `e`, is refused for the
reason `x` after it made the moves `ms`.  It is the other half of `Grants`: an operation in
steps is refused at its first step, or its first step is granted and the rest is refused.

Moves made before a refusal stay made.  The lemmas on single operations say which these can
be: a check that fails makes none, and an operation that needs a register makes the moves
that come before the register is asked for.
-/

namespace Assembly

namespace Emit

variable {α β : Type} {e : Engine} {x : EmitError} {ms : List Move}

def Refuses (m : Emit α) (e : Engine) (x : EmitError) (ms : List Move) : Prop :=
  m e = (.error x, ms)

/-- An operation that is never refused. -/
def Total (m : Emit α) : Prop := ∀ e x ms, ¬ m.Refuses e x ms

@[simp] theorem refuses_pure {a : α} : (pure a : Emit α).Refuses e x ms ↔ False := by
  show (Except.ok a, []) = (Except.error x, ms) ↔ _
  simp

@[simp] theorem refuses_throw {y : EmitError} :
    (throw y : Emit α).Refuses e x ms ↔ x = y ∧ ms = [] := by
  show (Except.error y, []) = (Except.error x, ms) ↔ _
  rw [Prod.mk.injEq, Except.error.injEq, eq_comm, @eq_comm _ [] ms]

theorem refuses_bind {m : Emit α} {f : α → Emit β} :
    (m >>= f).Refuses e x ms ↔ m.Refuses e x ms ∨
      ∃ a ms₁, m.Grants e a ms₁ ∧ ∃ ms₂, (f a).Refuses (e.makeAll ms₁) x ms₂ ∧
        ms = ms₁ ++ ms₂ := by
  rw [Refuses, bind_apply]
  constructor
  · intro h
    cases hm : (m e).1 with
    | error y =>
      simp only [hm, Prod.mk.injEq, Except.error.injEq] at h
      exact .inl (Prod.ext (h.1 ▸ hm) h.2)
    | ok a =>
      simp only [hm, Prod.mk.injEq] at h
      exact .inr ⟨a, (m e).2, Prod.ext hm rfl, _, Prod.ext h.1 rfl, h.2.symm⟩
  · rintro (hm | ⟨a, ms₁, hm, ms₂, hf, rfl⟩)
    · rw [Refuses] at hm
      rw [hm]
    · rw [Grants] at hm
      rw [Refuses] at hf
      rw [hm]
      simp [hf]

@[simp] theorem refuses_read_bind {f : Engine → Emit β} :
    (read >>= f).Refuses e x ms ↔ (f e).Refuses e x ms := by
  rw [refuses_bind]
  constructor
  · rintro (hr | ⟨_, _, hr, ms₂, hf, rfl⟩)
    · cases congrArg Prod.fst hr
    · obtain ⟨rfl, rfl⟩ := grants_read.mp hr
      exact hf
  · intro hf
    exact .inr ⟨e, [], grants_read.mpr ⟨rfl, rfl⟩, ms, hf, rfl⟩

@[simp] theorem refuses_ite {c : Prop} [Decidable c] {m n : Emit α} :
    (if c then m else n).Refuses e x ms ↔ if c then m.Refuses e x ms else n.Refuses e x ms := by
  split <;> rfl

@[simp] theorem refuses_map {m : Emit α} {f : α → β} :
    (f <$> m).Refuses e x ms ↔ m.Refuses e x ms := by
  show (m >>= fun a => pure (f a)).Refuses e x ms ↔ _
  rw [refuses_bind]
  simp

theorem refuses_rewording {m : Emit α} {words : EmitError → EmitError} :
    (m.rewording words).Refuses e x ms ↔ ∃ y, m.Refuses e y ms ∧ x = words y := by
  rw [Refuses, rewording]
  cases hm : m e with
  | mk answer made =>
    cases answer with
    | ok a =>
      refine iff_of_false (fun h => by cases congrArg Prod.fst h) ?_
      rintro ⟨y, hy, -⟩
      rw [Refuses, hm] at hy
      cases hy
    | error y =>
      constructor
      · intro h
        cases h
        exact ⟨y, hm, rfl⟩
      · rintro ⟨z, hz, rfl⟩
        rw [Refuses, hm] at hz
        cases hz
        rfl

theorem refuses_finishing {m : Emit α} {last : Emit Unit} :
    (m.finishing last).Refuses e x ms ↔
      ∃ ms₁, m.Refuses e x ms₁ ∧ ms = ms₁ ++ (last (e.makeAll ms₁)).2 := by
  rw [Refuses, finishing]
  constructor
  · intro h
    rw [Prod.mk.injEq] at h
    exact ⟨(m e).2, Prod.ext h.1 rfl, h.2.symm⟩
  · rintro ⟨ms₁, hm, rfl⟩
    rw [Refuses] at hm
    rw [hm]

/-! ## Operations that are never refused -/

namespace Total

theorem pure (a : α) : (Pure.pure a : Emit α).Total := fun _ _ _ => refuses_pure.mp

theorem moves (ns : List Move) : (Emit.moves ns).Total := fun _ _ _ h => by
  cases congrArg Prod.fst h

theorem instrs (is : List Instr) : (Emit.instrs is).Total := moves _

theorem bind {m : Emit α} {f : α → Emit β} (hm : m.Total) (hf : ∀ a, (f a).Total) :
    (m >>= f).Total := by
  intro e x ms h
  rcases refuses_bind.mp h with h | ⟨a, ms₁, -, ms₂, h, -⟩
  · exact hm e x ms h
  · exact hf a _ x ms₂ h

theorem reading {f : Engine → Emit β} (hf : ∀ e, (f e).Total) : (read >>= f).Total :=
  fun e x ms h => hf e e x ms (refuses_read_bind.mp h)

theorem ite {c : Prop} [Decidable c] {m n : Emit α} (hm : m.Total) (hn : n.Total) :
    (if c then m else n).Total := by
  split
  · exact hm
  · exact hn

/-- The steps before the first one that can be refused are granted. -/
theorem refuses_bind {m : Emit α} {f : α → Emit β} (hm : m.Total)
    (h : (m >>= f).Refuses e x ms) :
    ∃ a ms₁, m.Grants e a ms₁ ∧ ∃ ms₂, (f a).Refuses (e.makeAll ms₁) x ms₂ ∧ ms = ms₁ ++ ms₂ :=
  (Emit.refuses_bind.mp h).resolve_left (hm e x ms)

end Total

/-- A step that is followed by nothing that can be refused. -/
theorem Refuses.of_bind_total {m : Emit α} {f : α → Emit β} (hf : ∀ a, (f a).Total)
    (h : (m >>= f).Refuses e x ms) : m.Refuses e x ms := by
  rcases refuses_bind.mp h with h | ⟨a, ms₁, -, ms₂, h, -⟩
  · exact h
  · exact absurd h (hf a _ x ms₂)

theorem total_materialize (v : Value) (type : Text) : (materialize v type).Total :=
  .ite (.pure v) (.reading fun _ => .bind (.moves _) fun _ => .bind (.moves _) fun _ => .pure _)

theorem total_stringLabel (t : Text) : (stringLabel t).Total :=
  .reading fun _ => .bind (.moves _) fun _ => .bind (.moves _) fun _ => .pure _

theorem total_needPrintInt : needPrintInt.Total :=
  .reading fun _ => .ite (.pure ()) (.bind (.moves _) fun _ => .bind (.moves _) fun _ => .moves _)

theorem total_needPrintFloat : needPrintFloat.Total :=
  .reading fun _ => .ite (.pure ()) (.bind total_needPrintInt fun _ => .bind (.moves _) fun _ =>
    .bind (.moves _) fun _ => .moves _)

theorem total_printString (s : Text) : (printString s).Total :=
  .reading fun _ => .bind (.moves _) fun _ => .bind (.moves _) fun _ => .instrs _

theorem total_release (v : Value) : (release v).Total := fun e x ms h => by
  rw [Refuses, release_run] at h
  cases congrArg Prod.fst h

/-! ## Checks and registers -/

variable {type name : Text} {v : Value}

theorem checkType_refused : (checkType type).Refuses e x ms ↔
    e.target.knows type = false ∧ e.strict = true ∧ x = .unknownType type ∧ ms = [] := by
  rw [Refuses, checkType_run]
  cases e.target.knows type with
  | true => simp
  | false => cases e.strict <;> simp [eq_comm]

theorem checkType_known {u : Unit} (hs : e.strict = true) (h : (checkType type).Grants e u ms) :
    e.target.knows type = true := by
  rw [Grants, checkType_run] at h
  split at h
  case isTrue hknown => exact hknown
  case isFalse => cases h

theorem claimSymbol_refused : (claimSymbol name).Refuses e x ms ↔
    e.defines name = true ∧ e.strict = true ∧ x = .duplicateSymbol name ∧ ms = [] := by
  rw [Refuses, claimSymbol_run]
  cases e.defines name with
  | false => simp
  | true => cases e.strict <;> simp [eq_comm]

theorem allocRegAs_refused {temp : Bool} (h : (allocRegAs type temp).Refuses e x ms) :
    e.regs.strict = true ∧ e.regs.firstFree? (TypePolicy.regClass type) = none ∧ ms = [] := by
  rw [Refuses, allocRegAs_run] at h
  cases ha : e.regs.alloc? (TypePolicy.regClass type) with
  | none =>
    rw [ha] at h
    obtain ⟨hs, hfree⟩ := RegisterFile.alloc?_eq_none_iff.mp ha
    exact ⟨hs, hfree, (congrArg Prod.snd h).symm⟩
  | some ag =>
    rw [ha] at h
    cases congrArg Prod.fst h

/-- A register is refused before anything is done with it. -/
theorem withTemp_refused {body : Value → Emit α} (hbody : ∀ r, (body r).Total)
    (h : (withTemp type body).Refuses e x ms) :
    e.regs.strict = true ∧ e.regs.firstFree? (TypePolicy.regClass type) = none ∧ ms = [] := by
  rcases refuses_bind.mp h with h | ⟨r, ms₁, -, ms₂, h, -⟩
  · exact allocRegAs_refused h
  · obtain ⟨ms₃, hr, -⟩ := refuses_finishing.mp h
    exact absurd hr (hbody r _ x ms₃)

end Emit

end Assembly
