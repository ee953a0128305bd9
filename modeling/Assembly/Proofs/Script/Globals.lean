import Assembly.Proofs.Script.Part

/-!
# Functions and the names outside

A function binds its names in a scope of its own, and looks up and frees names there first.  So the
only way in which a function changes the names outside is to free one that it does not bind itself.
`executed` are the statements of a body that are run, each with the state in front of it: a failure
ends the run, and the statement that fails is the last.

Bindings come and go while a body is run, and the same `free` can drop a name of the function the
first time and the name outside the second time.  What is kept through the run is therefore not a
property of the names that the function binds, but which names were dropped so far.
-/

namespace Assembly.Script

/-! ## Dropped names -/

/-- From `b` to `b'` the names with the property `gone` are dropped and no others. -/
structure Drops (gone : Text → Prop) (b b' : Bindings) : Prop where
  dropped : ∀ x, gone x → b.get? x ≠ none ∧ b'.get? x = none
  kept : ∀ x, ¬ gone x → b'.get? x = b.get? x

namespace Drops

variable {p q : Text → Prop} {b b' b'' : Bindings} {x : Text}

theorem nothing (h : ∀ x, ¬ p x) : Drops p b b :=
  ⟨fun x hx => absurd hx (h x), fun _ _ => rfl⟩

theorem erase (h : b.get? x ≠ none) (hp : ∀ y, p y ↔ y = x) : Drops p b (b.erase x) := by
  refine ⟨fun y hy => ?_, fun y hy => ?_⟩
  · rw [(hp y).mp hy]
    exact ⟨h, Bindings.get?_erase_self b x⟩
  · exact Bindings.get?_erase_of_ne b fun he => hy ((hp y).mpr he)

theorem trans (h : Drops p b b') (h' : Drops q b' b'') : Drops (fun x => p x ∨ q x) b b'' := by
  refine ⟨fun x hx => ?_, fun x hx => ?_⟩
  · by_cases hp : p x
    · obtain ⟨hb, hb'⟩ := h.dropped x hp
      -- A name that is dropped cannot be dropped again.
      have hq : ¬ q x := fun hq => (h'.dropped x hq).1 hb'
      exact ⟨hb, (h'.kept x hq).trans hb'⟩
    · obtain ⟨hb', hb''⟩ := h'.dropped x (hx.resolve_left hp)
      exact ⟨h.kept x hp ▸ hb', hb''⟩
  · rw [not_or] at hx
    exact (h'.kept x hx.2).trans (h.kept x hx.1)

theorem congr (h : Drops p b b') (hpq : ∀ x, p x ↔ q x) : Drops q b b' :=
  ⟨fun x hx => h.dropped x ((hpq x).mpr hx), fun x hx => h.kept x (mt (hpq x).mp hx)⟩

/-- What is bound at the end was bound to the same value before. -/
theorem get?_of_get? (h : Drops p b b') {v : Value} (hv : b'.get? x = some v) :
    b.get? x = some v := by
  by_cases hp : p x
  · rw [(h.dropped x hp).2] at hv
    cases hv
  · exact h.kept x hp ▸ hv

theorem dropped_iff (h : Drops p b b') (x : Text) :
    b.get? x ≠ none ∧ b'.get? x = none ↔ p x := by
  refine ⟨fun hx => ?_, h.dropped x⟩
  by_contra hp
  exact hx.1 (h.kept x hp ▸ hx.2)

end Drops

/-! ## Parts of a run that leave the names alone -/

namespace Emitter

def SameNames (em em' : Emitter) : Prop := em'.globals = em.globals ∧ em'.scope = em.scope

theorem SameNames.trans {em em' em'' : Emitter} (h : em.SameNames em') (h' : em'.SameNames em'') :
    em.SameNames em'' := ⟨h'.1.trans h.1, h'.2.trans h.2⟩

end Emitter

namespace Emission

variable {α β : Type}

/-- Whether or not it succeeds, the part of a run changes no names. -/
def LeavesNames (m : Emission α) : Prop := ∀ em : Emitter, em.SameNames (m.outcome em).2

namespace LeavesNames

theorem pure (a : α) : (Pure.pure a : Emission α).LeavesNames := fun _ => ⟨rfl, rfl⟩

theorem fail (pos : Pos) (f : ScriptFault) : (Emission.fail pos f : Emission α).LeavesNames :=
  fun _ => ⟨rfl, rfl⟩

theorem bind {m : Emission α} {f : α → Emission β} (hm : m.LeavesNames)
    (hf : ∀ a, (f a).LeavesNames) : (m >>= f).LeavesNames := by
  intro em
  have hfirst := hm em
  rw [outcome_bind]
  rcases hr : m.outcome em with ⟨x | a, em'⟩
  · rw [hr] at hfirst
    exact hfirst
  · rw [hr] at hfirst
    exact hfirst.trans (hf a em')

theorem get {f : Emitter → Emission β} (hf : ∀ em, (f em).LeavesNames) :
    (MonadState.get >>= f).LeavesNames := fun em => hf em em

theorem engine (pos : Pos) (m : Emit α) : (Emission.engine pos m).LeavesNames :=
  fun _ => ⟨rfl, rfl⟩

theorem part {ps : List Pos} {m : Emission α} (h : Part ps m) : m.LeavesNames := by
  induction h with
  | pure a => exact pure a
  | fail _ f => exact fail _ f
  | bind _ _ ihm ihf => exact ihm.bind ihf
  | reading _ _ ih => exact get ih
  | engine => exact engine _ _

end LeavesNames

/-- If the part of a run fails, it has changed no names. -/
def FailsClean (m : Emission α) : Prop :=
  ∀ em x em', m.outcome em = (.error x, em') → em.SameNames em'

namespace FailsClean

theorem of_leavesNames {m : Emission α} (hm : m.LeavesNames) : m.FailsClean := by
  intro em x em' h
  have hem := hm em
  rw [h] at hem
  exact hem

theorem modifying (f : Emitter → Emitter) : (modify f : Emission Unit).FailsClean := by
  intro em x em' h
  cases h

theorem bind {m : Emission α} {f : α → Emission β} (hm : m.LeavesNames)
    (hf : ∀ a, (f a).FailsClean) : (m >>= f).FailsClean := by
  intro em x em' h
  have hfirst := hm em
  rw [outcome_bind] at h
  rcases hr : m.outcome em with ⟨y | a, em₁⟩
  · rw [hr] at h hfirst
    cases h
    exact hfirst
  · rw [hr] at h hfirst
    exact hfirst.trans (hf a em₁ x em' h)

theorem get {f : Emitter → Emission β} (hf : ∀ em, (f em).FailsClean) :
    (MonadState.get >>= f).FailsClean := fun em => hf em em

/-- Names are bound and dropped by the last step of a statement, which cannot fail. -/
theorem statement {ps : List Pos} {m : Emission Unit} (h : Statement ps m) : m.FailsClean := by
  induction h with
  | part h => exact of_leavesNames (.part h)
  | renames => exact modifying _
  | bind hm _ ih => exact bind (.part hm) ih
  | reading _ _ ih => exact get ih

end FailsClean

end Emission

/-! ## Statements of a function -/

namespace Emitter

/-- From a state, a statement frees a name that the function does not bind itself. -/
def FreesOutside (em : Emitter) (s : Stmt) (name : Text) : Prop :=
  s.form = .free name ∧ ((Emission.stmt s).outcome em).1 = .ok () ∧
    em.scope.bind (·.names.get? name) = none

instance (em : Emitter) (s : Stmt) (name : Text) : Decidable (em.FreesOutside s name) :=
  inferInstanceAs (Decidable (_ ∧ _ ∧ _))

variable {em em' : Emitter} {s : Stmt} {sc : Scope}

theorem bind_inside (h : em.scope = some sc) (e : Engine) (name : Text) (v : Value) :
    (Emitter.bind { em with engine := e } name v).globals = em.globals ∧
      (Emitter.bind { em with engine := e } name v).scope ≠ none := by
  rw [Emitter.bind, h]
  exact ⟨rfl, Option.some_ne_none _⟩

theorem unbind_of_bound (h : em.scope = some sc) (e : Engine) {name : Text}
    (hname : sc.names.get? name ≠ none) :
    (Emitter.unbind { em with engine := e } name).globals = em.globals ∧
      (Emitter.unbind { em with engine := e } name).scope ≠ none := by
  rw [Emitter.unbind, h]
  dsimp only
  rw [if_pos (Option.isSome_iff_ne_none.mpr hname)]
  exact ⟨rfl, Option.some_ne_none _⟩

theorem unbind_of_unbound (h : em.scope = some sc) (e : Engine) {name : Text}
    (hname : sc.names.get? name = none) :
    (Emitter.unbind { em with engine := e } name).globals = em.globals.erase name ∧
      (Emitter.unbind { em with engine := e } name).scope ≠ none := by
  rw [Emitter.unbind, h]
  dsimp only
  rw [hname]
  exact ⟨rfl, Option.some_ne_none _⟩

theorem not_freesOutside (h : ∀ name, s.form ≠ .free name) (name : Text) :
    ¬ em.FreesOutside s name := fun hf => h name hf.1

/-- A statement that succeeds drops the name that it frees outside, if it frees one. -/
theorem Does.drops {pos : Pos} {form : StmtForm} (h : em.Does form em')
    (hok : (Emission.stmt ⟨pos, form⟩).Yields em () em') (hin : em.scope = some sc) :
    Drops (em.FreesOutside ⟨pos, form⟩) em.globals em'.globals ∧ em'.scope ≠ none := by
  have hresult : ((Emission.stmt ⟨pos, form⟩).outcome em).1 = .ok () := congrArg Prod.fst hok
  cases h with
  | @declare _ name v ms hname =>
    obtain ⟨hglobals, hscope⟩ := bind_inside hin (em.engine.makeAll ms) name v
    rw [hglobals]
    refine ⟨.nothing (not_freesOutside fun x hx => ?_), hscope⟩
    rw [show form = .free x from hx] at hname
    cases hname
  | @bind name value v em₁ hvalue =>
    obtain ⟨ms, rfl, -⟩ := Emission.expr_yields hvalue
    obtain ⟨hglobals, hscope⟩ := bind_inside hin (em.engine.makeAll ms) name v
    rw [hglobals]
    refine ⟨.nothing (not_freesOutside fun x hx => ?_), hscope⟩
    cases hx
  | @free name v ms hlookup =>
    by_cases hname : sc.names.get? name = none
    · obtain ⟨hglobals, hscope⟩ := unbind_of_unbound hin (em.engine.makeAll ms) hname
      have hnone : em.scope.bind (·.names.get? name) = none := by rw [hin]; exact hname
      -- The name is looked up outside, so it was bound there.
      have hbound : em.globals.get? name = some v := by rwa [Emitter.lookup, hnone] at hlookup
      rw [hglobals]
      refine ⟨.erase (hbound ▸ Option.some_ne_none v) fun y => ⟨fun hy => ?_, fun hy => ?_⟩, hscope⟩
      · cases hy.1
        rfl
      · rw [hy]
        exact ⟨rfl, hresult, hnone⟩
    · obtain ⟨hglobals, hscope⟩ := unbind_of_bound hin (em.engine.makeAll ms) hname
      rw [hglobals]
      refine ⟨.nothing ?_, hscope⟩
      rintro x ⟨hx, -, hnone⟩
      cases hx
      rw [hin] at hnone
      exact hname hnone
  | other hform =>
    refine ⟨.nothing (not_freesOutside fun x hx => ?_), hin ▸ Option.some_ne_none sc⟩
    rw [show form = .free x from hx] at hform
    cases hform

end Emitter

namespace Emission

/-- A statement in a function drops the name that it frees outside, if it frees one, and the run
stays in the function. -/
theorem stmt_drops (s : Stmt) {em : Emitter} (hin : em.scope ≠ none) :
    Drops (em.FreesOutside s) em.globals ((stmt s).outcome em).2.globals ∧
      ((stmt s).outcome em).2.scope ≠ none := by
  obtain ⟨sc, hsc⟩ := Option.ne_none_iff_exists'.mp hin
  rcases hr : (stmt s).outcome em with ⟨x | u, em'⟩
  · obtain ⟨hglobals, hscope⟩ := FailsClean.statement (.stmt s) em x em' hr
    refine ⟨?_, hscope ▸ hin⟩
    rw [hglobals]
    refine .nothing fun name hfree => ?_
    rw [Emitter.FreesOutside, hr] at hfree
    cases hfree.2.1
  · exact (stmt_does hr).drops hr hsc

/-- The statements of a list that are run, each with the state in front of it. -/
def executed : List Stmt → Emitter → List (Emitter × Stmt)
  | [], _ => []
  | s :: ss, em => (em, s) ::
    match (stmt s).outcome em with
    | (.ok _, em') => executed ss em'
    | (.error _, _) => []

theorem stmts_drop (ss : List Stmt) (em : Emitter) (hin : em.scope ≠ none) :
    Drops (fun name => ∃ p ∈ executed ss em, p.1.FreesOutside p.2 name) em.globals
      ((ss.forM stmt).outcome em).2.globals := by
  induction ss generalizing em with
  | nil => exact .nothing fun name h => by simp [executed] at h
  | cons s ss ih =>
    obtain ⟨hdrops, hstay⟩ := stmt_drops s hin
    show Drops _ _ ((stmt s >>= fun _ => ss.forM stmt).outcome em).2.globals
    rw [outcome_bind]
    rcases hr : (stmt s).outcome em with ⟨x | u, em'⟩
    · rw [hr] at hdrops
      exact hdrops.congr fun name => by simp [executed, hr]
    · rw [hr] at hdrops hstay
      exact (hdrops.trans (ih em' hstay)).congr fun name => by simp [executed, hr]

end Emission

/-! ## Functions -/

/-- The statements of a function that are run.  There are none if the function cannot begin. -/
def Func.executed (f : Func) (em : Emitter) : List (Emitter × Stmt) :=
  match (Emission.engine f.pos (Emit.beginFunction f.name f.signature)).outcome em with
  | (.ok ref, em') => Emission.executed f.body { em' with scope := some ⟨ref, []⟩ }
  | (.error _, _) => []

theorem Emission.func_drops (f : Func) (em : Emitter) (h : em.scope = none) :
    Drops (fun name => ∃ p ∈ f.executed em, p.1.FreesOutside p.2 name) em.globals
        ((func f).outcome em).2.globals ∧
      ((func f).outcome em).2.scope = none := by
  obtain ⟨hglobals, hscope⟩ :=
    LeavesNames.engine f.pos (Emit.beginFunction f.name f.signature) em
  rw [func, outcome_bind, Func.executed]
  rcases hr : (engine f.pos (Emit.beginFunction f.name f.signature)).outcome em with ⟨x | ref, em₁⟩
  · rw [hr] at hglobals hscope
    refine ⟨?_, hscope.trans h⟩
    rw [hglobals]
    exact .nothing fun name hfree => by simp at hfree
  · rw [hr] at hglobals
    dsimp only
    rw [outcome_inScope]
    refine ⟨?_, rfl⟩
    have hbody := stmts_drop f.body { em₁ with scope := some ⟨ref, []⟩ } (Option.some_ne_none _)
    have hend : ∀ em₂ : Emitter, ((f.body.forM stmt >>= fun _ =>
        engine f.pos (Emit.endFunction ref)).outcome em₂).2.globals =
          ((f.body.forM stmt).outcome em₂).2.globals := by
      intro em₂
      rw [outcome_bind]
      rcases (f.body.forM stmt).outcome em₂ with ⟨x | u, em₃⟩
      · rfl
      · rfl
    rw [hend, ← hglobals]
    exact hbody

/-- **Names outside of functions.**  A function that is run from outside of functions, whether or
not it succeeds, leaves the run outside.  It binds no names there and keeps the values of those
that are left.  The names that it drops are those that a statement of it freed when the function
did not bind them itself. -/
theorem function_drops_freed (f : Func) (em : Emitter) (h : em.scope = none) :
    let em' := ((Emission.func f).outcome em).2
    em'.scope = none ∧
      (∀ name v, em'.globals.get? name = some v → em.globals.get? name = some v) ∧
      ∀ name, (em.globals.get? name ≠ none ∧ em'.globals.get? name = none) ↔
        ∃ p ∈ f.executed em, p.1.FreesOutside p.2 name := by
  obtain ⟨hdrops, hscope⟩ := Emission.func_drops f em h
  exact ⟨hscope, fun name v => hdrops.get?_of_get?, hdrops.dropped_iff⟩

/-- A function that binds `x`, and frees it until it fails: its own name first, then the one outside
that is uncovered. -/
def uncovering : Func :=
  ⟨⟨0, 1, 1⟩, "f", [],
    [⟨⟨9, 2, 1⟩, .bind "x" ⟨⟨17, 2, 9⟩, .alloc "int64"⟩⟩, ⟨⟨29, 3, 1⟩, .free "x"⟩,
      ⟨⟨36, 4, 1⟩, .free "x"⟩, ⟨⟨43, 5, 1⟩, .free "x"⟩, ⟨⟨50, 6, 1⟩, .free "y"⟩]⟩

def twoRegisters : Emitter :=
  ⟨.new .bits64 true,
    [("x", .ofRegister "rbx" "int64" true), ("y", .ofRegister "r12" "int64" true)], none⟩

theorem function_drops_freed_uncovering :
    twoRegisters.scope = none ∧ (uncovering.executed twoRegisters).length = 4 ∧
      (∃ p ∈ uncovering.executed twoRegisters, p.1.FreesOutside p.2 "x") ∧
      ((Emission.func uncovering).outcome twoRegisters).2.globals.get? "x" = none ∧
      ((Emission.func uncovering).outcome twoRegisters).2.globals.get? "y" ≠ none := by
  have hfreed : ∃ p ∈ uncovering.executed twoRegisters, p.1.FreesOutside p.2 "x" := by
    decide +kernel
  have hkept : ¬ ∃ p ∈ uncovering.executed twoRegisters, p.1.FreesOutside p.2 "y" := by
    decide +kernel
  obtain ⟨-, -, hdropped⟩ := function_drops_freed uncovering twoRegisters rfl
  refine ⟨rfl, by decide +kernel, hfreed, ((hdropped "x").mpr hfreed).2, fun hy => ?_⟩
  exact hkept ((hdropped "y").mp ⟨by decide, hy⟩)

end Assembly.Script
