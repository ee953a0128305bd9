import Assembly.Proofs.Engine.Registers
import Assembly.Script.Emission

/-!
# Scripts as commands

A script is a tree of functions and statements.  Its run goes through one list of commands:
a function is entered, its statements are run, and it is left again.  The points between
two commands are the points between statements.  `emit_eq_runAll` says that running a script
is running its commands in turn up to the first failure.

`m.Yields em a em'` says of a part of a run that it succeeds with `a` and takes the run
from `em` to `em'`.
-/

namespace Assembly.Script

/-! ## Parts of a run that succeed -/

namespace Emission

variable {α β : Type} {em em' : Emitter} {pos : Pos}

/-- What comes of a part of a run. -/
def outcome (m : Emission α) (em : Emitter) : Except ScriptError α × Emitter := m.run.run em

def Yields (m : Emission α) (em : Emitter) (a : α) (em' : Emitter) : Prop :=
  m.outcome em = (.ok a, em')

theorem outcome_bind (m : Emission α) (f : α → Emission β) (em : Emitter) :
    (m >>= f).outcome em = match m.outcome em with
      | (.ok a, em') => (f a).outcome em'
      | (.error x, em') => (.error x, em') := by
  rw [outcome, ExceptT.run_bind, StateT.run_bind]
  rcases hm : m.outcome em with ⟨x | a, em₁⟩
  · rw [show m.run.run em = (.error x, em₁) from hm]
    rfl
  · rw [show m.run.run em = (.ok a, em₁) from hm]
    rfl

@[simp] theorem yields_pure {a b : α} : (pure a : Emission α).Yields em b em' ↔ b = a ∧ em' = em := by
  show (Except.ok a, em) = (Except.ok b, em') ↔ _
  rw [Prod.mk.injEq, Except.ok.injEq, eq_comm, @eq_comm _ em]

@[simp] theorem yields_fail {f : ScriptFault} {a : α} :
    (fail pos f : Emission α).Yields em a em' ↔ False := by
  show (Except.error _, em) = (Except.ok a, em') ↔ _
  simp

@[simp] theorem yields_bind {m : Emission α} {f : α → Emission β} {b : β} :
    (m >>= f).Yields em b em' ↔ ∃ a em₁, m.Yields em a em₁ ∧ (f a).Yields em₁ b em' := by
  rw [Yields, outcome_bind]
  constructor
  · intro h
    rcases hm : m.outcome em with ⟨x | a, em₁⟩
    · rw [hm] at h
      cases h
    · rw [hm] at h
      exact ⟨a, em₁, hm, h⟩
  · rintro ⟨a, em₁, hm, hf⟩
    rw [Yields] at hm
    rw [hm]
    exact hf

@[simp] theorem yields_get_bind {f : Emitter → Emission β} {b : β} :
    (get >>= f).Yields em b em' ↔ (f em).Yields em b em' := by
  rw [yields_bind]
  constructor
  · rintro ⟨_, _, hget, hf⟩
    cases hget
    exact hf
  · intro hf
    exact ⟨em, em, rfl, hf⟩

@[simp] theorem yields_modify {f : Emitter → Emitter} {u : Unit} :
    (modify f : Emission Unit).Yields em u em' ↔ em' = f em := by
  show (Except.ok (), f em) = (Except.ok u, em') ↔ _
  simp [eq_comm]

@[simp] theorem yields_engine {m : Emit α} {a : α} :
    (engine pos m).Yields em a em' ↔
      ∃ ms, m.Grants em.engine a ms ∧ em' = { em with engine := em.engine.makeAll ms } := by
  show ((m em.engine).1.mapError _, { em with engine := em.engine.makeAll (m em.engine).2 }) =
    (Except.ok a, em') ↔ _
  constructor
  · intro h
    rw [Prod.mk.injEq] at h
    refine ⟨(m em.engine).2, ?_, h.2.symm⟩
    cases hm : (m em.engine).1 with
    | error x =>
      rw [hm] at h
      cases h.1
    | ok b =>
      rw [hm] at h
      cases h.1
      exact Prod.ext hm rfl
  · rintro ⟨ms, hm, rfl⟩
    rw [Emit.Grants] at hm
    rw [hm]
    rfl

/-! ## Terms and expressions -/

theorem stringText_yields {t u : Text} (h : (stringText pos t).Yields em u em') : em' = em := by
  rw [stringText] at h
  split at h
  · split at h
    · exact (yields_pure.mp h).2
    · exact (yields_fail.mp h).elim
  · exact (yields_pure.mp h).2

theorem isRegister_of_ofNumeral? {t : Text} {v : Value} (h : Value.ofNumeral? t = some v) :
    v.isRegister = false := by
  rw [Value.ofNumeral?] at h
  split at h
  · cases h
    rfl
  · split at h
    · split at h
      · cases h
        rfl
      · cases h
    · cases h

/-- A term changes nothing; only a name can denote a register. -/
theorem term_yields {x : Term} {v : Value} (h : (term x).Yields em v em') :
    em' = em ∧ match x.form with
      | .name n => em.lookup n = some v
      | _ => v.isRegister = false := by
  obtain ⟨pos, form⟩ := x
  rw [term] at h
  cases form with
  | string t =>
    obtain ⟨u, em₁, hu, h⟩ := yields_bind.mp h
    obtain ⟨rfl, rfl⟩ := yields_pure.mp h
    exact ⟨stringText_yields hu, rfl⟩
  | number t =>
    dsimp only at h
    split at h
    case h_1 => exact (yields_fail.mp h).elim
    case h_2 w hw =>
      have hreg := isRegister_of_ofNumeral? hw
      split at h
      · obtain ⟨rfl, rfl⟩ := yields_pure.mp h
        exact ⟨rfl, hreg⟩
      · rw [yields_get_bind] at h
        obtain ⟨rfl, rfl⟩ := yields_pure.mp h
        exact ⟨rfl, hreg⟩
  | name n =>
    dsimp only at h
    rw [yields_get_bind] at h
    split at h
    case h_1 w hw =>
      obtain ⟨rfl, rfl⟩ := yields_pure.mp h
      exact ⟨rfl, hw⟩
    case h_2 => exact (yields_fail.mp h).elim

theorem terms_yield {xs : List Term} {vs : List Value} (h : (xs.mapM term).Yields em vs em') :
    em' = em := by
  induction xs generalizing vs em with
  | nil =>
    rw [List.mapM_nil] at h
    exact (yields_pure.mp h).2
  | cons x xs ih =>
    rw [List.mapM_cons] at h
    obtain ⟨v, em₁, hx, h⟩ := yields_bind.mp h
    obtain ⟨ws, em₂, hxs, h⟩ := yields_bind.mp h
    obtain ⟨rfl, rfl⟩ := yields_pure.mp h
    rw [ih hxs, (term_yields hx).1]

theorem call_yields {c : CallForm} {v : Value} (h : (call pos c).Yields em v em') :
    ∃ args ms, ((Emit.call c.name args).Grants em.engine v ms ∨
        ∃ type, (Emit.callAs c.name args type).Grants em.engine v ms) ∧
      em' = { em with engine := em.engine.makeAll ms } := by
  obtain ⟨args, em₁, hargs, h⟩ := yields_bind.mp h
  rw [terms_yield hargs] at h
  split at h
  · obtain ⟨ms, hms, rfl⟩ := yields_engine.mp h
    exact ⟨args, ms, .inl hms, rfl⟩
  · obtain ⟨ms, hms, rfl⟩ := yields_engine.mp h
    exact ⟨args, ms, .inr ⟨_, hms⟩, rfl⟩

theorem function_yields {f : ScriptFault} {ref : FunctionRef}
    (h : (function pos f).Yields em ref em') :
    em' = em ∧ ∃ s, em.scope = some s ∧ s.fn = ref := by
  rw [function, yields_get_bind] at h
  split at h
  case h_1 s hs =>
    obtain ⟨rfl, rfl⟩ := yields_pure.mp h
    exact ⟨rfl, s, hs, rfl⟩
  case h_2 => exact (yields_fail.mp h).elim

theorem expr_yields {x : Expr} {v : Value} (h : (expr x).Yields em v em') :
    ∃ ms, em' = { em with engine := em.engine.makeAll ms } ∧
      match x.form with
      | .param name => ∃ s, em.scope = some s ∧ (Emit.param s.fn name).Grants em.engine v ms
      | .load value type => ∃ w, (term value).Yields em w em ∧
          (Emit.loadValue w (type.getD [])).Grants em.engine v ms
      | .alloc type => (Emit.allocReg type).Grants em.engine v ms
      | .call c => ∃ args, (Emit.call c.name args).Grants em.engine v ms ∨
          ∃ type, (Emit.callAs c.name args type).Grants em.engine v ms
      | .cast _ type => ∃ w, (Emit.cast w type).Grants em.engine v ms
      | .term value => ms = [] ∧ (term value).Yields em v em := by
  obtain ⟨pos, form⟩ := x
  rw [expr] at h
  cases form with
  | param name =>
    obtain ⟨ref, em₁, hf, h⟩ := yields_bind.mp h
    obtain ⟨rfl, s, hs, rfl⟩ := function_yields hf
    obtain ⟨ms, hms, rfl⟩ := yields_engine.mp h
    exact ⟨ms, rfl, s, hs, hms⟩
  | load value type =>
    obtain ⟨w, em₁, hw, hload⟩ := yields_bind.mp h
    have hem : em₁ = em := (term_yields hw).1
    subst hem
    obtain ⟨ms, hms, rfl⟩ := yields_engine.mp hload
    exact ⟨ms, rfl, w, hw, hms⟩
  | alloc type =>
    obtain ⟨ms, hms, rfl⟩ := yields_engine.mp h
    exact ⟨ms, rfl, hms⟩
  | call c =>
    obtain ⟨args, ms, hms, rfl⟩ := call_yields h
    exact ⟨ms, rfl, args, hms⟩
  | cast value type =>
    obtain ⟨w, em₁, hw, hcast⟩ := yields_bind.mp h
    obtain ⟨rfl, -⟩ := term_yields hw
    obtain ⟨ms, hms, rfl⟩ := yields_engine.mp hcast
    exact ⟨ms, rfl, w, hms⟩
  | term value =>
    have hem : em' = em := (term_yields h).1
    subst hem
    exact ⟨[], rfl, rfl, h⟩

end Emission

/-! ## Statements -/

/-- The name that a statement declares storage under. -/
def StmtForm.declares : StmtForm → Option Text
  | .const name _ _ | .globalVar name _ | .localVar name _ => some name
  | _ => none

/-- Whether a statement leaves all names as they are. -/
def StmtForm.keepsNames : StmtForm → Bool
  | .call _ | .print _ | .asm _ | .ret _ | .exit _ => true
  | _ => false

/-- What a statement does: it binds a name to storage, binds a name to the value of an
expression, gives back the register of a name, or leaves all names as they are.  Only the
second and the third change the registers that a strict engine has in use. -/
inductive Emitter.Does (em : Emitter) : StmtForm → Emitter → Prop
  | declare {form : StmtForm} {name : Text} {v : Value} {ms : List Move}
      (hname : form.declares = some name) (hv : v.isRegister = false)
      (hkeep : em.engine.regs.strict → em.engine.Keeps ms) :
      Does em form (Emitter.bind { em with engine := em.engine.makeAll ms } name v)
  | bind {name : Text} {value : Expr} {v : Value} {em₁ : Emitter}
      (hvalue : (Emission.expr value).Yields em v em₁) :
      Does em (.bind name value) (em₁.bind name v)
  | free {name : Text} {v : Value} {ms : List Move} (hlookup : em.lookup name = some v)
      (hv : v.isRegister) (hrelease : (Emit.release v).Grants em.engine () ms) :
      Does em (.free name) (Emitter.unbind { em with engine := em.engine.makeAll ms } name)
  | other {form : StmtForm} {ms : List Move} (hform : form.keepsNames)
      (hkeep : em.engine.regs.strict → em.engine.Keeps ms) :
      Does em form { em with engine := em.engine.makeAll ms }

namespace Emission

variable {em em' : Emitter} {u : Unit}

theorem code_yields {pos : Pos} {t c : Text} (h : (code pos t).Yields em c em') : em' = em := by
  obtain ⟨t', em₁, ht, h⟩ := yields_bind.mp h
  rw [stringText_yields ht, yields_get_bind] at h
  split at h
  · exact (yields_pure.mp h).2
  · exact (yields_fail.mp h).elim

theorem exitCode_yields {c : Option Term} {n : Int} (h : (exitCode c).Yields em n em') :
    em' = em := by
  rw [exitCode.eq_def] at h
  split at h
  · exact (yields_pure.mp h).2
  · split at h
    · split at h
      · exact (yields_pure.mp h).2
      · exact (yields_fail.mp h).elim
    · exact (yields_fail.mp h).elim

theorem call_acquires {pos : Pos} {c : CallForm} {v : Value} (h : (call pos c).Yields em v em') :
    ∃ ms, em' = { em with engine := em.engine.makeAll ms } ∧
      (em.engine.regs.strict → em.engine.Acquires ms v ∧ v.temp) := by
  obtain ⟨args, ms, hms | ⟨type, hms⟩, rfl⟩ := call_yields h
  · exact ⟨ms, rfl, fun hs => Emit.call_acquires hs hms⟩
  · exact ⟨ms, rfl, fun hs => Emit.callAs_acquires hs hms⟩

theorem stmt_does {s : Stmt} (h : (stmt s).Yields em u em') : em.Does s.form em' := by
  obtain ⟨pos, form⟩ := s
  rw [stmt] at h
  cases form with
  | const name type value =>
    obtain ⟨lit, em₁, hlit, hrest⟩ := yields_bind.mp h
    obtain ⟨rfl, -⟩ := term_yields hlit
    obtain ⟨v, em₂, hv, hbind⟩ := yields_bind.mp hrest
    obtain ⟨ms, hms, rfl⟩ := yields_engine.mp hv
    rw [yields_modify.mp hbind]
    obtain ⟨hstorage, hquiet⟩ := Emit.declareConst_moves hms
    exact .declare rfl hstorage fun _ => Emit.keeps_of_quiet hquiet
  | globalVar name type =>
    obtain ⟨v, em₁, hv, hbind⟩ := yields_bind.mp h
    obtain ⟨ms, hms, rfl⟩ := yields_engine.mp hv
    rw [yields_modify.mp hbind]
    obtain ⟨hstorage, hquiet⟩ := Emit.declareGlobal_moves hms
    exact .declare rfl hstorage fun _ => Emit.keeps_of_quiet hquiet
  | localVar name type =>
    obtain ⟨ref, em₁, hf, hrest⟩ := yields_bind.mp h
    obtain ⟨rfl, -⟩ := function_yields hf
    obtain ⟨v, em₂, hv, hbind⟩ := yields_bind.mp hrest
    obtain ⟨ms, hms, rfl⟩ := yields_engine.mp hv
    rw [yields_modify.mp hbind]
    exact .declare rfl (Emit.declareLocal_moves hms).1 fun _ => Emit.declareLocal_keeps hms
  | bind name value =>
    obtain ⟨v, em₁, hv, hbind⟩ := yields_bind.mp h
    rw [yields_modify.mp hbind]
    exact .bind hv
  | call c =>
    obtain ⟨r, em₁, hr, hrelease⟩ := yields_bind.mp h
    obtain ⟨ms, rfl, hacq⟩ := call_acquires hr
    obtain ⟨ns, hns, rfl⟩ := yields_engine.mp hrelease
    rw [← Engine.makeAll_append]
    exact .other rfl fun hstrict => Emit.release_keeps (hacq hstrict).1 (hacq hstrict).2 hns
  | print value =>
    obtain ⟨v, em₁, hv, hprint⟩ := yields_bind.mp h
    obtain ⟨rfl, -⟩ := term_yields hv
    obtain ⟨ms, hms, rfl⟩ := yields_engine.mp hprint
    exact .other rfl fun hstrict => Emit.print_keeps hstrict hms
  | asm t =>
    obtain ⟨c, em₁, hc, hblock⟩ := yields_bind.mp h
    obtain rfl := code_yields hc
    obtain ⟨ms, hms, rfl⟩ := yields_engine.mp hblock
    exact .other rfl fun _ => Emit.block_keeps hms
  | free name =>
    dsimp only at h
    rw [yields_get_bind] at h
    split at h
    case h_1 => exact (yields_fail.mp h).elim
    case h_2 v hv =>
      split at h
      case isTrue hreg =>
        obtain ⟨_, em₁, hrelease, hunbind⟩ := yields_bind.mp h
        obtain ⟨ms, hms, rfl⟩ := yields_engine.mp hrelease
        rw [yields_modify.mp hunbind]
        exact .free hv hreg hms
      case isFalse => exact (yields_fail.mp h).elim
  | ret value =>
    obtain ⟨ref, em₁, hf, hrest⟩ := yields_bind.mp h
    obtain ⟨rfl, -⟩ := function_yields hf
    obtain ⟨v, em₂, hv, hret⟩ := yields_bind.mp hrest
    obtain ⟨rfl, -⟩ := term_yields hv
    obtain ⟨ms, hms, rfl⟩ := yields_engine.mp hret
    exact .other rfl fun _ => Emit.returnValue_keeps hms
  | exit c =>
    obtain ⟨n, em₁, hn, hexit⟩ := yields_bind.mp h
    obtain rfl := exitCode_yields hn
    obtain ⟨ms, hms, rfl⟩ := yields_engine.mp hexit
    exact .other rfl fun _ => Emit.exit_keeps hms

end Emission

theorem Emitter.Does.fn {em em' : Emitter} {form : StmtForm} (h : em.Does form em') :
    em'.scope.map (·.fn) = em.scope.map (·.fn) := by
  cases h with
  | declare => cases em.scope <;> simp [Emitter.bind]
  | bind hvalue =>
    obtain ⟨ms, rfl, -⟩ := Emission.expr_yields hvalue
    cases em.scope <;> simp [Emitter.bind]
  | free =>
    cases em.scope with
    | none => simp [Emitter.unbind]
    | some s =>
      simp only [Emitter.unbind]
      split <;> simp
  | other => rfl

/-! ## Commands -/

inductive Command
  | enter (f : Func)
  | stmt (s : Stmt)
  | leave (f : Func)
deriving DecidableEq, Repr

def Item.commands : Item → List Command
  | func f => .enter f :: (f.body.map .stmt ++ [.leave f])
  | stmt s => [.stmt s]

/-- The commands of a script in the order in which they are run. -/
def commands (s : Script) : List Command := s.items.flatMap Item.commands

def Command.emit : Command → Emission Unit
  | enter f => do
    let ref ← Emission.engine f.pos (Emit.beginFunction f.name f.signature)
    modify fun em => { em with scope := some ⟨ref, []⟩ }
  | stmt s => Emission.stmt s
  | leave f => do
    if let some s := (← get).scope then Emission.engine f.pos (Emit.endFunction s.fn)
    modify fun em => { em with scope := none }

/-- Runs commands in turn up to the first failure. -/
def runAll (cs : List Command) : Emission Unit := cs.forM Command.emit

/-- Two ends of a run: the same result and the same engine, and after a success the same
state outside of functions.  After a failure the names of the function may still be there. -/
def SameEnd (a b : Except ScriptError Unit × Emitter) : Prop :=
  a.1 = b.1 ∧ a.2.engine = b.2.engine ∧ (a.1 = .ok () → a.2 = b.2 ∧ a.2.scope = none)

namespace Emission

theorem outcome_inScope (f : FunctionRef) (body : Emission Unit) (em : Emitter) :
    (inScope f body).outcome em =
      ((body.outcome { em with scope := some ⟨f, []⟩ }).1,
        { (body.outcome { em with scope := some ⟨f, []⟩ }).2 with scope := none }) := rfl

theorem runAll_append (cs ds : List Command) :
    runAll (cs ++ ds) = runAll cs >>= fun _ => runAll ds := by
  simp only [runAll, List.forM_eq_forM, List.forM_append]

theorem runAll_stmts (ss : List Stmt) : runAll (ss.map .stmt) = ss.forM stmt := by
  simp only [runAll, List.forM_eq_forM, List.forM_map]
  rfl

theorem stmts_fn {ss : List Stmt} {em em' : Emitter} {u : Unit}
    (h : (ss.forM stmt).Yields em u em') : em'.scope.map (·.fn) = em.scope.map (·.fn) := by
  induction ss generalizing em with
  | nil => rw [(yields_pure.mp h).2]
  | cons s ss ih =>
    obtain ⟨_, em₁, hs, h⟩ := yields_bind.mp h
    exact (ih h).trans (stmt_does hs).fn

theorem runAll_func (f : Func) :
    runAll (Item.commands (.func f)) = (Command.enter f).emit >>= fun _ =>
      f.body.forM stmt >>= fun _ => (Command.leave f).emit := by
  show ((Command.enter f).emit >>= fun _ => runAll (f.body.map .stmt ++ [Command.leave f])) = _
  rw [runAll_append, runAll_stmts]
  show _ = ((Command.enter f).emit >>= fun _ => f.body.forM stmt >>= fun _ => (Command.leave f).emit)
  simp [runAll]

theorem outcome_leave (f : Func) {em : Emitter} {s : Scope} (h : em.scope = some s) :
    (Command.leave f).emit.outcome em =
      match (engine f.pos (Emit.endFunction s.fn)).outcome em with
      | (.ok _, em') => (.ok (), { em' with scope := none })
      | (.error x, em') => (.error x, em') := by
  have hget : (get : Emission Emitter).outcome em = (.ok em, em) := rfl
  rw [Command.emit, outcome_bind, hget]
  dsimp only
  rw [h, outcome_bind]
  rcases (engine f.pos (Emit.endFunction s.fn)).outcome em with ⟨x | u, em'⟩
  · rfl
  · rfl

theorem func_sameEnd (f : Func) (em : Emitter) :
    SameEnd ((func f).outcome em) ((runAll (Item.commands (.func f))).outcome em) := by
  rw [runAll_func, func, outcome_bind, outcome_bind, Command.emit, outcome_bind]
  rcases (engine f.pos (Emit.beginFunction f.name f.signature)).outcome em with ⟨x | ref, em₁⟩
  · exact ⟨rfl, rfl, fun h => nomatch h⟩
  show SameEnd ((inScope ref _).outcome em₁)
    ((f.body.forM stmt >>= fun _ => (Command.leave f).emit).outcome
      { em₁ with scope := some ⟨ref, []⟩ })
  rw [outcome_inScope, outcome_bind, outcome_bind]
  rcases hbody : (f.body.forM stmt).outcome { em₁ with scope := some ⟨ref, []⟩ } with ⟨x | u, em₂⟩
  · exact ⟨rfl, rfl, fun h => nomatch h⟩
  -- Statements stay in their function, so the one that is left is the one that was entered.
  obtain ⟨s, hs, hfn⟩ : ∃ s, em₂.scope = some s ∧ s.fn = ref := by
    have hkept := stmts_fn hbody
    exact Option.map_eq_some_iff.mp hkept
  dsimp only
  rw [outcome_leave f hs, hfn]
  rcases (engine f.pos (Emit.endFunction ref)).outcome em₂ with ⟨x | u, em₃⟩
  · exact ⟨rfl, rfl, fun h => nomatch h⟩
  · exact ⟨rfl, rfl, fun _ => ⟨rfl, rfl⟩⟩

theorem stmt_sameEnd (s : Stmt) {em : Emitter} (h : em.scope = none) :
    SameEnd ((stmt s).outcome em) ((runAll (Item.commands (.stmt s))).outcome em) := by
  have hone : runAll (Item.commands (.stmt s)) = stmt s := by
    show (stmt s >>= fun _ => pure ()) = stmt s
    simp
  rw [hone]
  refine ⟨rfl, rfl, fun hok => ⟨rfl, ?_⟩⟩
  have hyields : (stmt s).Yields em () ((stmt s).outcome em).2 := Prod.ext hok rfl
  simpa [h] using (stmt_does hyields).fn

theorem items_sameEnd (is : List Item) (em : Emitter) (h : em.scope = none) :
    SameEnd ((is.forM item).outcome em) ((runAll (is.flatMap Item.commands)).outcome em) := by
  induction is generalizing em with
  | nil => exact ⟨rfl, rfl, fun _ => ⟨rfl, h⟩⟩
  | cons i is ih =>
    have hfirst : SameEnd ((item i).outcome em) ((runAll i.commands).outcome em) := by
      cases i with
      | func f => exact func_sameEnd f em
      | stmt s => exact stmt_sameEnd s h
    rw [List.flatMap_cons, runAll_append, outcome_bind]
    show SameEnd ((item i >>= fun _ => is.forM item).outcome em) _
    rw [outcome_bind]
    -- A failure ends both runs; after a success they go on from the same state.
    generalize (item i).outcome em = a at hfirst ⊢
    generalize (runAll i.commands).outcome em = b at hfirst ⊢
    obtain ⟨x | u, em₁⟩ := a
    · obtain ⟨y, em₂⟩ := b
      obtain ⟨hres, heng, -⟩ := hfirst
      cases hres
      exact ⟨rfl, heng, fun h => nomatch h⟩
    · obtain ⟨y, em₂⟩ := b
      obtain ⟨hres, -, hok⟩ := hfirst
      obtain ⟨hsame, hscope⟩ := hok rfl
      cases hres
      cases hsame
      exact ih em₁ hscope

end Emission

/-- Running a script is running its commands up to the first failure. -/
theorem emit_eq_runAll (s : Script) (e : Engine) :
    s.emit e = (((runAll s.commands).outcome (.new e)).1.mapError fun x => { x with file := s.file },
      ((runAll s.commands).outcome (.new e)).2.engine) := by
  obtain ⟨hres, heng, -⟩ := Emission.items_sameEnd s.items (.new e) rfl
  rw [commands, ← hres, ← heng]
  rfl

end Assembly.Script
