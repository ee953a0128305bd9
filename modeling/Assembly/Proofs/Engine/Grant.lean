import Assembly.Engine.Request

/-!
# Operations that are granted

`m.Grants e a ms` says that the operation `m`, asked of the engine `e`, answers `a` and
makes the moves `ms`.  The lemmas take a granted operation apart into the operations it is
built from, so that proofs about an operation never open the monad.
-/

namespace Assembly.Emit

variable {α β : Type} {e : Engine} {ms : List Move}

def Grants (m : Emit α) (e : Engine) (a : α) (ms : List Move) : Prop := m e = (.ok a, ms)

theorem bind_apply (m : Emit α) (f : α → Emit β) (e : Engine) :
    (m >>= f) e = match (m e).1 with
      | .ok a =>
        ((f a (e.makeAll (m e).2)).1, (m e).2 ++ (f a (e.makeAll (m e).2)).2)
      | .error x => (.error x, (m e).2) := rfl

@[simp] theorem grants_pure {a b : α} : (pure a : Emit α).Grants e b ms ↔ b = a ∧ ms = [] := by
  show (Except.ok a, []) = (Except.ok b, ms) ↔ _
  rw [Prod.mk.injEq, Except.ok.injEq, eq_comm, @eq_comm _ [] ms]

@[simp] theorem grants_throw {x : EmitError} {a : α} : (throw x : Emit α).Grants e a ms ↔ False := by
  show (Except.error x, []) = (Except.ok a, ms) ↔ _
  simp

@[simp] theorem grants_read {a : Engine} : (read : Emit Engine).Grants e a ms ↔ a = e ∧ ms = [] := by
  show (Except.ok e, []) = (Except.ok a, ms) ↔ _
  rw [Prod.mk.injEq, Except.ok.injEq, eq_comm, @eq_comm _ [] ms]

@[simp] theorem grants_bind {m : Emit α} {f : α → Emit β} {b : β} :
    (m >>= f).Grants e b ms ↔
      ∃ a ms₁, m.Grants e a ms₁ ∧ ∃ ms₂, (f a).Grants (e.makeAll ms₁) b ms₂ ∧
        ms = ms₁ ++ ms₂ := by
  rw [Grants, bind_apply]
  constructor
  · intro h
    cases hm : (m e).1 with
    | error x => simp [hm] at h
    | ok a =>
      simp only [hm, Prod.mk.injEq] at h
      exact ⟨a, (m e).2, Prod.ext hm rfl, (f a (e.makeAll (m e).2)).2, Prod.ext h.1 rfl, h.2.symm⟩
  · rintro ⟨a, ms₁, hm, ms₂, hf, rfl⟩
    rw [Grants] at hm hf
    rw [hm]
    simp [hf]

@[simp] theorem grants_moves {ns : List Move} {u : Unit} :
    (moves ns).Grants e u ms ↔ ms = ns := by
  show (Except.ok (), ns) = (Except.ok u, ms) ↔ _
  simp [eq_comm]

@[simp] theorem grants_read_bind {f : Engine → Emit β} {b : β} :
    (read >>= f).Grants e b ms ↔ (f e).Grants e b ms := by
  rw [grants_bind]
  constructor
  · rintro ⟨_, _, hr, ms₂, hf, rfl⟩
    obtain ⟨rfl, rfl⟩ := grants_read.mp hr
    exact hf
  · intro hf
    exact ⟨e, [], grants_read.mpr ⟨rfl, rfl⟩, ms, hf, rfl⟩

@[simp] theorem grants_throw_bind {x : EmitError} {f : α → Emit β} {b : β} :
    ((throw x : Emit α) >>= f).Grants e b ms ↔ False := by
  simp

@[simp] theorem grants_moves_bind {ns : List Move} {f : Unit → Emit β} {b : β} :
    (moves ns >>= f).Grants e b ms ↔
      ∃ ms₂, (f ()).Grants (e.makeAll ns) b ms₂ ∧ ms = ns ++ ms₂ := by
  rw [grants_bind]
  constructor
  · rintro ⟨⟨⟩, ms₁, hm, ms₂, hf, rfl⟩
    rw [grants_moves] at hm
    exact ⟨ms₂, hm ▸ hf, by rw [hm]⟩
  · rintro ⟨ms₂, hf, rfl⟩
    exact ⟨(), ns, grants_moves.mpr rfl, ms₂, hf, rfl⟩

@[simp] theorem grants_ite {c : Prop} [Decidable c] {m n : Emit α} {a : α} :
    (if c then m else n).Grants e a ms ↔ if c then m.Grants e a ms else n.Grants e a ms := by
  split <;> rfl

@[simp] theorem grants_map {m : Emit α} {f : α → β} {b : β} :
    (f <$> m).Grants e b ms ↔ ∃ a, m.Grants e a ms ∧ b = f a := by
  show (m >>= fun a => pure (f a)).Grants e b ms ↔ _
  rw [grants_bind]
  constructor
  · rintro ⟨a, ms₁, hm, ms₂, hf, rfl⟩
    obtain ⟨rfl, rfl⟩ := grants_pure.mp hf
    exact ⟨a, by rwa [List.append_nil], rfl⟩
  · rintro ⟨a, hm, rfl⟩
    exact ⟨a, ms, hm, [], grants_pure.mpr ⟨rfl, rfl⟩, (List.append_nil ms).symm⟩

@[simp] theorem grants_move {m : Move} {u : Unit} : (move m).Grants e u ms ↔ ms = [m] :=
  grants_moves

@[simp] theorem grants_instr {i : Instr} {u : Unit} : (instr i).Grants e u ms ↔ ms = [.instr i] :=
  grants_move

@[simp] theorem grants_instrs {is : List Instr} {u : Unit} :
    (instrs is).Grants e u ms ↔ ms = is.map .instr :=
  grants_moves

@[simp] theorem grants_rewording {m : Emit α} {words : EmitError → EmitError} {a : α} :
    (m.rewording words).Grants e a ms ↔ m.Grants e a ms := by
  rw [Grants, Grants, rewording]
  constructor
  · intro h
    have h₁ := congrArg Prod.fst h
    have h₂ := congrArg Prod.snd h
    cases hm : (m e).1 with
    | error x =>
      rw [hm] at h₁
      cases h₁
    | ok b =>
      rw [hm] at h₁
      exact Prod.ext (hm.trans h₁) h₂
  · intro h
    rw [h]
    rfl

@[simp] theorem grants_finishing {m : Emit α} {last : Emit Unit} {a : α} :
    (m.finishing last).Grants e a ms ↔
      ∃ ms₁, m.Grants e a ms₁ ∧ ms = ms₁ ++ (last (e.makeAll ms₁)).2 := by
  rw [Grants, finishing]
  constructor
  · intro h
    rw [Prod.mk.injEq] at h
    exact ⟨(m e).2, Prod.ext h.1 rfl, h.2.symm⟩
  · rintro ⟨ms₁, hm, rfl⟩
    rw [Grants] at hm
    rw [hm]

end Assembly.Emit
