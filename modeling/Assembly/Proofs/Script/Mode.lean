import Assembly.Proofs.Engine.Mode
import Assembly.Proofs.Script.Part

/-!
# Scripts in strict and in permissive mode

A script asks the engine alone for its mode, through the operations it runs.  So what holds
of the operations holds of scripts: a run on a strict engine fails by a rule of strict mode,
or it is the same run on the permissive twin.
-/

namespace Assembly.Script

/-- Whether a run failed by a rule that strict engines alone have. -/
def ScriptError.isPolicy (x : ScriptError) : Bool := x.cause.any EmitError.isPolicy

def failedByPolicy {α : Type} : Except ScriptError α → Bool
  | .error x => x.isPolicy
  | .ok _ => false

/-- The same state of a run on the permissive twin. -/
def Emitter.relaxed (em : Emitter) : Emitter := { em with engine := em.engine.relaxed }

namespace Emission

variable {α β : Type}

/-- On a strict engine a part of a run fails by policy, or it goes the same on the twin,
without a warning. -/
def RelaxesAt (m : Emission α) (em : Emitter) : Prop :=
  failedByPolicy (m.outcome em).1 = true ∨
    (m.outcome em.relaxed = ((m.outcome em).1, (m.outcome em).2.relaxed) ∧
      (m.outcome em).2.engine.Strict ∧ (m.outcome em).2.engine.warnings = em.engine.warnings)

def Conservative (m : Emission α) : Prop := ∀ em : Emitter, em.engine.Strict → m.RelaxesAt em

namespace Conservative

theorem pure (a : α) : (Pure.pure a : Emission α).Conservative :=
  fun _ he => .inr ⟨rfl, he, rfl⟩

theorem fail (pos : Pos) (f : ScriptFault) : (Emission.fail pos f : Emission α).Conservative :=
  fun _ he => .inr ⟨rfl, he, rfl⟩

theorem bind {m : Emission α} {f : α → Emission β} (hm : m.Conservative)
    (hf : ∀ a, (f a).Conservative) : (m >>= f).Conservative := by
  intro em he
  have hm := hm em he
  rw [RelaxesAt] at hm
  rw [RelaxesAt, outcome_bind, outcome_bind]
  rcases hr : m.outcome em with ⟨x | a, em₁⟩
  · rw [hr] at hm
    obtain hm | ⟨hsame, hstrict, hlog⟩ := hm
    · exact .inl hm
    · rw [hsame]
      exact .inr ⟨rfl, hstrict, hlog⟩
  · rw [hr] at hm
    obtain hm | ⟨hsame, hstrict, hlog⟩ := hm
    · cases hm
    · rw [hsame]
      obtain hp | ⟨hsame', hstrict', hlog'⟩ := hf a em₁ hstrict
      · exact .inl hp
      · exact .inr ⟨hsame', hstrict', hlog'.trans hlog⟩

theorem get {f : Emitter → Emission β} (hsame : ∀ em, f em.relaxed = f em)
    (hf : ∀ em, (f em).Conservative) : (MonadState.get >>= f).Conservative := by
  intro em he
  have hrun : ∀ em', (MonadState.get >>= f).outcome em' = (f em').outcome em' := fun _ => rfl
  rw [RelaxesAt, hrun, hrun, hsame]
  exact hf em em he

theorem modifying {f : Emitter → Emitter} (hsame : ∀ em, f em.relaxed = (f em).relaxed)
    (hengine : ∀ em, (f em).engine = em.engine) : (modify f : Emission Unit).Conservative := by
  intro em he
  have hrun : ∀ em', (modify f : Emission Unit).outcome em' = (.ok (), f em') := fun _ => rfl
  right
  rw [hrun, hrun, hsame]
  exact ⟨rfl, (hengine em).symm ▸ he, congrArg Engine.warnings (hengine em)⟩

theorem engine {m : Emit α} (pos : Pos) (hm : m.Conservative) :
    (Emission.engine pos m).Conservative := by
  intro em he
  have hrun : ∀ em' : Emitter, (Emission.engine pos m).outcome em' =
      ((m em'.engine).1.mapError fun c => ⟨.engine c, pos, []⟩,
        { em' with engine := em'.engine.makeAll (m em'.engine).2 }) := fun _ => rfl
  rw [RelaxesAt, hrun, hrun]
  obtain hp | ⟨hsame, hquiet⟩ := hm em.engine he
  · left
    cases hr : (m em.engine).1 with
    | ok a => rw [hr] at hp; cases hp
    | error x => rw [hr] at hp; exact hp
  · right
    have hmoves := Engine.relaxed_makeAll he (m em.engine).2
    refine ⟨?_, he.makeAll _, Engine.warnings_makeAll hquiet em.engine⟩
    show ((m em.engine.relaxed).1.mapError _,
      { em with engine := em.engine.relaxed.makeAll (m em.engine.relaxed).2 }) = _
    rw [hsame, hmoves]
    rfl

theorem forM {xs : List α} {f : α → Emission Unit} (h : ∀ x, (f x).Conservative) :
    (xs.forM f).Conservative := by
  induction xs with
  | nil => exact pure ()
  | cons x xs ih => exact (h x).bind fun _ => ih

/-- The scope is left in both runs, also after a failure. -/
theorem inScope (f : FunctionRef) {body : Emission Unit} (h : body.Conservative) :
    (Emission.inScope f body).Conservative := by
  intro em he
  rw [RelaxesAt, outcome_inScope, outcome_inScope]
  obtain hp | ⟨hsame, hstrict, hlog⟩ := h { em with scope := some ⟨f, []⟩ } he
  · exact .inl hp
  · right
    refine ⟨?_, hstrict, hlog⟩
    rw [show ({ em.relaxed with scope := some ⟨f, []⟩ } : Emitter) =
      Emitter.relaxed { em with scope := some ⟨f, []⟩ } from rfl, hsame]
    rfl

/-! ## Statements -/

theorem part {ps : List Pos} {m : Emission α} (h : Part ps m) : m.Conservative := by
  induction h with
  | pure a => exact pure a
  | fail _ f => exact fail _ f
  | bind _ _ ihm ihf => exact ihm.bind ihf
  | reading hsees _ ih => exact get (fun em => hsees em _ rfl) ih
  | engine _ hq hm => exact engine _ (.of_asksFor hm fun h => by subst h; cases hq)

theorem renames {k : Emitter → Emitter} (h : Renames k) :
    (modify k : Emission Unit).Conservative := by
  refine modifying (fun em => ?_) h.engine
  rw [Emitter.relaxed, h, Emitter.relaxed, h.engine]

theorem statement {ps : List Pos} {m : Emission Unit} (h : Statement ps m) : m.Conservative := by
  induction h with
  | part h => exact part h
  | renames h => exact renames h
  | bind hm _ ih => exact (part hm).bind ih
  | reading hsees _ ih => exact get (fun em => hsees em _ rfl) ih

theorem item (i : Item) : (Emission.item i).Conservative := by
  cases i with
  | stmt s => exact statement (.stmt s)
  | func f =>
    refine (engine _ (Emit.Announces.beginFunction f.name _).conservative).bind fun ref =>
      inScope ref ((forM fun s => statement (.stmt s)).bind fun _ => engine _ ?_)
    exact .of_asksFor (Request.asksFor_unit (q := .endFunction ref) rfl) Request.noConfusion

end Conservative

end Emission

/-- A script that does not fail by policy runs the same on the permissive twin. -/
theorem emit_relaxed {e : Engine} (he : e.Strict) {s : Script}
    (h : failedByPolicy (s.emit e).1 = false) :
    (s.emit e.relaxed).1 = (s.emit e).1 ∧ (s.emit e.relaxed).2 = (s.emit e).2.relaxed ∧
      (s.emit e).2.warnings = e.warnings := by
  have hrun : ∀ e', s.emit e' =
      (((s.items.forM Emission.item).outcome (.new e')).1.mapError fun x => { x with file := s.file },
        ((s.items.forM Emission.item).outcome (.new e')).2.engine) := fun _ => rfl
  have hitems : (s.items.forM Emission.item).Conservative := .forM .item
  rw [hrun] at h
  rw [hrun, hrun]
  obtain hp | ⟨hsame, -, hlog⟩ := hitems (.new e) he
  · -- The name of the file does not change the cause of a failure.
    exfalso
    cases hr : ((s.items.forM Emission.item).outcome (.new e)).1 with
    | ok u => rw [hr] at hp; cases hp
    | error x =>
      rw [hr] at hp h
      exact Bool.false_ne_true (h.symm.trans hp)
  · rw [show Emitter.new e.relaxed = (Emitter.new e).relaxed from rfl, hsame]
    exact ⟨rfl, rfl, hlog⟩

/-! ## Strict mode as a restriction -/

/-- If a strict engine refuses nothing by policy, the permissive engine replies the same to every
request, ends in the same state up to the mode, and has nothing to warn about but a program text
asked for too early.  The same holds of a script that is run after these requests. -/
theorem strict_conservative (t : Target) (qs : List Request)
    (h : (Engine.new t true).abides qs = true) :
    let strict := Engine.new t true
    let permissive := Engine.new t false
    (∀ pre q post, qs = pre ++ q :: post →
      (permissive.serveAll pre).reply q = (strict.serveAll pre).reply q ∧
      (q ≠ .finalize →
        ((permissive.serveAll pre).serve q).warnings = (permissive.serveAll pre).warnings)) ∧
    permissive.serveAll qs = (strict.serveAll qs).relaxed ∧
    (permissive.serveAll qs).program = (strict.serveAll qs).program ∧
    ∀ s : Script, failedByPolicy (s.emit (strict.serveAll qs)).1 = false →
      (s.emit (permissive.serveAll qs)).1 = (s.emit (strict.serveAll qs)).1 ∧
      (s.emit (permissive.serveAll qs)).2 = (s.emit (strict.serveAll qs)).2.relaxed ∧
      (s.emit (permissive.serveAll qs)).2.warnings = (permissive.serveAll qs).warnings := by
  intro strict permissive
  have hstrict : strict.Strict := Engine.strict_new t
  have hrun : ∀ {rs : List Request}, strict.abides rs = true →
      permissive.serveAll rs = (strict.serveAll rs).relaxed := Engine.serveAll_relaxed hstrict
  refine ⟨?_, hrun h, ?_, ?_⟩
  · rintro pre q post rfl
    rw [Engine.abides_append, Bool.and_eq_true, Engine.abides, Bool.and_eq_true] at h
    have hq : refusedByPolicy ((strict.serveAll pre).reply q) = false := by simpa using h.2.1
    rw [hrun h.1]
    obtain ⟨hreply, hserve, hlog⟩ := Engine.serve_relaxed (hstrict.serveAll pre) hq
    refine ⟨hreply, fun hne => ?_⟩
    rw [hserve]
    exact hlog hne
  · rw [hrun h]
    rfl
  · intro s hs
    rw [hrun h]
    obtain ⟨hres, hengine, hlog⟩ := emit_relaxed (hstrict.serveAll qs) hs
    refine ⟨hres, hengine, ?_⟩
    rw [hengine]
    exact hlog

/-- A run with a register of each class, a local, a parameter that is not there, and a program
text asked for while a function is open. -/
theorem strict_conservative_open_function :
    let qs : List Request :=
      [.declareGlobal "g" "int32", .alloc "double", .beginFunction "f" [⟨"n", "int8"⟩],
        .declareLocal ⟨0, "f"⟩ "x" "int16", .param ⟨0, "f"⟩ "m", .param ⟨0, "f"⟩ "n",
        .callAs "h" [.ofSlot "x" "int16" "ebp" 2, .ofText "abc"] "int32", .finalize]
    (Engine.new .bits32 true).abides qs = true ∧
      (Engine.new .bits32 false).serveAll qs = ((Engine.new .bits32 true).serveAll qs).relaxed :=
  ⟨by decide +kernel, (strict_conservative .bits32 _ (by decide +kernel)).2.1⟩

end Assembly.Script
