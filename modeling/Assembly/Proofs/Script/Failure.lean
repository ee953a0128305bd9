import Assembly.Proofs.Engine.Permissive
import Assembly.Proofs.Script.Part

/-!
# How a command fails

`m.Fails em x` says of a part of a run that it fails with `x`; it is the other half of `Yields`.

A command evaluates its operands, and then makes one request of the engine.  `Emitter.Asks` lists
the requests of a statement.  If the engine refuses the request, or if a number among the operands
cannot be read, this is what the command reports, `Emitter.Reports`, and no other failure has a
cause: `command_blames_iff`.
-/

namespace Assembly.Script

/-! ## Parts of a run that fail -/

namespace Emission

variable {α β : Type} {em em' : Emitter} {pos : Pos} {x : ScriptError}

def Fails (m : Emission α) (em : Emitter) (x : ScriptError) : Prop := (m.outcome em).1 = .error x

@[simp] theorem fails_pure {a : α} : (pure a : Emission α).Fails em x ↔ False := by
  show Except.ok a = Except.error x ↔ _
  simp

@[simp] theorem fails_fail {f : ScriptFault} :
    (fail pos f : Emission α).Fails em x ↔ x = ⟨f, pos, []⟩ := by
  show Except.error _ = Except.error x ↔ _
  rw [Except.error.injEq, eq_comm]

@[simp] theorem fails_bind {m : Emission α} {f : α → Emission β} :
    (m >>= f).Fails em x ↔
      m.Fails em x ∨ ∃ a em₁, m.Yields em a em₁ ∧ (f a).Fails em₁ x := by
  unfold Fails Yields
  rw [outcome_bind]
  rcases m.outcome em with ⟨y | a, em₁⟩
  · simp
  · simp

@[simp] theorem fails_get_bind {f : Emitter → Emission β} :
    (get >>= f).Fails em x ↔ (f em).Fails em x := Iff.rfl

@[simp] theorem fails_modify {f : Emitter → Emitter} :
    (modify f : Emission Unit).Fails em x ↔ False := by
  show Except.ok () = Except.error x ↔ _
  simp

@[simp] theorem fails_engine {m : Emit α} :
    (engine pos m).Fails em x ↔ ∃ c, m.Fails em.engine c ∧ x = ⟨.engine c, pos, []⟩ := by
  show (m em.engine).1.mapError _ = Except.error x ↔ _
  unfold Emit.Fails
  cases (m em.engine).1 with
  | ok a => simp [Except.mapError]
  | error c => simp [Except.mapError, eq_comm]

theorem not_yields_of_fails {m : Emission α} {a : α} (h : m.Fails em x) : ¬ m.Yields em a em' := by
  intro hy
  rw [Fails, show m.outcome em = (.ok a, em') from hy] at h
  cases h

theorem Fails.unique {m : Emission α} {y : ScriptError} (hx : m.Fails em x) (hy : m.Fails em y) :
    x = y := by
  rw [Fails] at hx hy
  rw [hx] at hy
  exact Except.error.inj hy

/-- A run through a list fails at one of its elements, and gets through those before it. -/
theorem forM_fails_iff {xs : List α} {f : α → Emission Unit} :
    (xs.forM f).Fails em x ↔ ∃ pre a post em₁, xs = pre ++ a :: post ∧
      (pre.forM f).Yields em () em₁ ∧ (f a).Fails em₁ x := by
  induction xs generalizing em with
  | nil =>
    show (pure () : Emission Unit).Fails em x ↔ _
    simp
  | cons b xs ih =>
    show (f b >>= fun _ => xs.forM f).Fails em x ↔ _
    rw [fails_bind]
    constructor
    · rintro (hb | ⟨u, em₁, hb, hxs⟩)
      · exact ⟨[], b, xs, em, rfl, rfl, hb⟩
      · obtain ⟨pre, a, post, em₂, rfl, hpre, ha⟩ := ih.1 hxs
        exact ⟨b :: pre, a, post, em₂, rfl, yields_bind.2 ⟨u, em₁, hb, hpre⟩, ha⟩
    · rintro ⟨pre, a, post, em₁, hxs, hpre, ha⟩
      cases pre with
      | nil =>
        cases hxs
        obtain ⟨-, rfl⟩ := yields_pure.1 hpre
        exact .inl ha
      | cons c pre =>
        cases hxs
        obtain ⟨u, em₂, hc, hpre⟩ := yields_bind.1 hpre
        exact .inr ⟨u, em₂, hc, ih.2 ⟨pre, a, post, em₁, rfl, hpre, ha⟩⟩

/-- The part of a run fails, and the cause is `c`. -/
def Blames (m : Emission α) (em : Emitter) (c : EmitError) : Prop :=
  ∃ x, m.Fails em x ∧ x.cause = some c

variable {c : EmitError}

@[simp] theorem blames_pure {a : α} : (pure a : Emission α).Blames em c ↔ False := by
  simp [Blames]

@[simp] theorem blames_fail {f : ScriptFault} :
    (fail pos f : Emission α).Blames em c ↔ f = .engine c := by
  simp only [Blames, fails_fail, exists_eq_left, ScriptError.cause]
  cases f <;> simp

@[simp] theorem blames_bind {m : Emission α} {f : α → Emission β} :
    (m >>= f).Blames em c ↔
      m.Blames em c ∨ ∃ a em₁, m.Yields em a em₁ ∧ (f a).Blames em₁ c := by
  simp only [Blames, fails_bind]
  constructor
  · rintro ⟨x, hm | ⟨a, em₁, hm, hf⟩, hx⟩
    · exact .inl ⟨x, hm, hx⟩
    · exact .inr ⟨a, em₁, hm, x, hf, hx⟩
  · rintro (⟨x, hm, hx⟩ | ⟨a, em₁, hm, x, hf, hx⟩)
    · exact ⟨x, .inl hm, hx⟩
    · exact ⟨x, .inr ⟨a, em₁, hm, hf⟩, hx⟩

@[simp] theorem blames_get_bind {f : Emitter → Emission β} :
    (get >>= f).Blames em c ↔ (f em).Blames em c := Iff.rfl

@[simp] theorem blames_modify {f : Emitter → Emitter} :
    (modify f : Emission Unit).Blames em c ↔ False := by
  simp [Blames]

@[simp] theorem blames_engine {m : Emit α} :
    (engine pos m).Blames em c ↔ m.Fails em.engine c := by
  simp only [Blames, fails_engine]
  constructor
  · rintro ⟨x, ⟨d, hd, rfl⟩, hx⟩
    cases hx
    exact hd
  · intro h
    exact ⟨_, ⟨c, h, rfl⟩, rfl⟩

theorem Fails.cause_eq_some_iff {m : Emission α} (h : m.Fails em x) :
    x.cause = some c ↔ m.Blames em c := by
  constructor
  · intro hx
    exact ⟨x, h, hx⟩
  · rintro ⟨y, hy, hc⟩
    rw [h.unique hy]
    exact hc

/-! ## Terms -/

theorem blames_stringText {t : Text} : ¬ (stringText pos t).Blames em c := by
  intro h
  unfold stringText at h
  split at h
  · split at h <;> simp at h
  · simp at h

theorem blames_code {t : Text} : ¬ (code pos t).Blames em c := by
  intro h
  obtain h | ⟨u, em₁, -, h⟩ := blames_bind.1 h
  · exact blames_stringText h
  · rw [blames_get_bind] at h
    split at h <;> simp at h

theorem blames_exitCode {t : Option Term} : ¬ (exitCode t).Blames em c := by
  intro h
  rw [exitCode.eq_def] at h
  split at h
  · simp at h
  · split at h
    · split at h <;> simp at h
    · simp at h

theorem blames_function {f : ScriptFault} (hf : f ≠ .engine c) :
    ¬ (function pos f).Blames em c := by
  intro h
  rw [function, blames_get_bind] at h
  split at h
  · simp at h
  · exact hf (blames_fail.1 h)

end Emission

/-- What is reported of a number that cannot be read. -/
def Term.unread (t : Term) : Option EmitError :=
  match t.form with
  | .number n => if (Value.ofNumeral? n).isNone then some (.badNumeral n) else none
  | _ => none

/-- The first of the operands that has no value is a number that cannot be read. -/
def Emitter.Unread (em : Emitter) (ts : List Term) (c : EmitError) : Prop :=
  ∃ pre t post, ts = pre ++ t :: post ∧
    (∀ u ∈ pre, ∃ v, (Emission.term u).Yields em v em) ∧ t.unread = some c

namespace Emission

variable {em em' : Emitter} {pos : Pos} {c : EmitError}

theorem blames_term {t : Term} : (term t).Blames em c ↔ t.unread = some c := by
  obtain ⟨tpos, form⟩ := t
  rw [term, Term.unread]
  cases form with
  | string u => simp only [blames_bind, blames_stringText, blames_pure, and_false, exists_false,
      or_false, reduceCtorEq]
  | number n =>
    dsimp only
    cases Value.ofNumeral? n with
    | none => simp
    | some v =>
      dsimp only
      split
      · simp
      · simp only [blames_get_bind, blames_pure, Option.isNone_some, Bool.false_eq_true, if_false,
          reduceCtorEq]
  | name n =>
    dsimp only
    rw [blames_get_bind]
    cases em.lookup n <;> simp

theorem blames_terms {ts : List Term} : (ts.mapM term).Blames em c ↔ em.Unread ts c := by
  unfold Emitter.Unread
  induction ts with
  | nil =>
    rw [List.mapM_nil]
    simp
  | cons t ts ih =>
    rw [List.mapM_cons]
    simp only [blames_bind, blames_pure, and_false, exists_false, or_false, blames_term]
    constructor
    · rintro (ht | ⟨v, em₁, hv, hts⟩)
      · exact ⟨[], t, ts, rfl, List.forall_mem_nil _, ht⟩
      · obtain rfl := (term_yields hv).1
        obtain ⟨pre, u, post, rfl, hpre, hu⟩ := ih.1 hts
        exact ⟨t :: pre, u, post, rfl, List.forall_mem_cons.2 ⟨⟨v, hv⟩, hpre⟩, hu⟩
    · rintro ⟨pre, u, post, hts, hpre, hu⟩
      cases pre with
      | nil =>
        cases hts
        exact .inl hu
      | cons w pre =>
        cases hts
        obtain ⟨⟨v, hv⟩, hpre⟩ := List.forall_mem_cons.1 hpre
        exact .inr ⟨v, em, hv, ih.2 ⟨pre, u, post, rfl, hpre, hu⟩⟩

end Emission

/-! ## Statements -/

/-- The request of a call. -/
inductive Emitter.AsksCall (em : Emitter) : CallForm → Request → Prop
  | plain {name : Text} {args : List Term} {vs : List Value}
      (hvs : (args.mapM Emission.term).Yields em vs em) :
      AsksCall em ⟨name, args, none⟩ (.call name vs)
  | typed {name type : Text} {args : List Term} {vs : List Value}
      (hvs : (args.mapM Emission.term).Yields em vs em) :
      AsksCall em ⟨name, args, some type⟩ (.callAs name vs type)

/-- The request of an expression.  A term by itself makes none. -/
inductive Emitter.AsksExpr (em : Emitter) : ExprForm → Request → Prop
  | param {name : Text} {s : Scope} (hs : em.scope = some s) :
      AsksExpr em (.param name) (.param s.fn name)
  | load {value : Term} {type : Option Text} {v : Value}
      (hv : (Emission.term value).Yields em v em) :
      AsksExpr em (.load value type) (.load v (type.getD []))
  | alloc {type : Text} : AsksExpr em (.alloc type) (.alloc type)
  | call {c : CallForm} {q : Request} (hq : em.AsksCall c q) : AsksExpr em (.call c) q
  | cast {value : Term} {type : Text} {v : Value} (hv : (Emission.term value).Yields em v em) :
      AsksExpr em (.cast value type) (.cast v type)

/-- The request of a statement.  The result of a call is given back behind it. -/
inductive Emitter.Asks (em : Emitter) : Stmt → Request → Prop
  | const {pos : Pos} {name : Text} {type : Option Text} {value : Term} {v : Value}
      (hv : (Emission.term value).Yields em v em) :
      Asks em ⟨pos, .const name type value⟩ (.declareConst name v (type.getD []))
  | globalVar {pos : Pos} {name type : Text} :
      Asks em ⟨pos, .globalVar name type⟩ (.declareGlobal name type)
  | localVar {pos : Pos} {name type : Text} {s : Scope} (hs : em.scope = some s) :
      Asks em ⟨pos, .localVar name type⟩ (.declareLocal s.fn name type)
  | bind {pos pos' : Pos} {name : Text} {form : ExprForm} {q : Request}
      (hq : em.AsksExpr form q) : Asks em ⟨pos, .bind name ⟨pos', form⟩⟩ q
  | call {pos : Pos} {c : CallForm} {q : Request} (hq : em.AsksCall c q) : Asks em ⟨pos, .call c⟩ q
  | print {pos : Pos} {value : Term} {v : Value} (hv : (Emission.term value).Yields em v em) :
      Asks em ⟨pos, .print value⟩ (.print v)
  | asm {pos : Pos} {t code : Text} (hcode : (Emission.code pos t).Yields em code em) :
      Asks em ⟨pos, .asm t⟩ (.rawBlock code)
  | free {pos : Pos} {name : Text} {v : Value} (hv : em.lookup name = some v)
      (hreg : v.isRegister) : Asks em ⟨pos, .free name⟩ (.release v)
  | ret {pos : Pos} {value : Term} {s : Scope} {v : Value} (hs : em.scope = some s)
      (hv : (Emission.term value).Yields em v em) :
      Asks em ⟨pos, .ret value⟩ (.returnValue s.fn v)
  | exit {pos : Pos} {code : Option Term} {n : Int}
      (hn : (Emission.exitCode code).Yields em n em) : Asks em ⟨pos, .exit code⟩ (.exit n)

/-- The terms that a statement evaluates.  A return outside of a function does not get to its
value. -/
def Emitter.operands (em : Emitter) : StmtForm → List Term
  | .const _ _ value | .print value => [value]
  | .bind _ value => value.form.operands
  | .call c => c.args
  | .ret value => if em.scope.isSome then [value] else []
  | _ => []

/-- What is reported when a command fails: the refusal of its request, or a number that cannot be
read.  All other failures are found by the run itself. -/
inductive Emitter.Reports (em : Emitter) : Command → EmitError → Prop
  | enter {f : Func} {c : EmitError}
      (h : em.engine.reply (.beginFunction f.name f.signature) = .error c) : Reports em (.enter f) c
  | refused {s : Stmt} {q : Request} {c : EmitError} (hq : em.Asks s q)
      (h : em.engine.reply q = .error c) : Reports em (.stmt s) c
  | unread {s : Stmt} {c : EmitError} (h : em.Unread (em.operands s.form) c) :
      Reports em (.stmt s) c
  | leave {f : Func} {s : Scope} {c : EmitError} (hs : em.scope = some s)
      (h : em.engine.reply (.endFunction s.fn) = .error c) : Reports em (.leave f) c

namespace Emission

variable {em : Emitter} {pos : Pos} {x : EmitError}

open Emitter

theorem unread_nil : ¬ em.Unread [] x := by
  rintro ⟨pre, t, post, h, -⟩
  cases pre <;> cases h

theorem unread_singleton {t : Term} : em.Unread [t] x ↔ t.unread = some x := by
  rw [← blames_terms, List.mapM_cons]
  simp only [List.mapM_nil, blames_bind, blames_pure, and_false, exists_false, or_false,
    blames_term]

theorem blames_term_bind {β : Type} {t : Term} {f : Value → Emission β} :
    (term t >>= f).Blames em x ↔
      em.Unread [t] x ∨ ∃ v, (term t).Yields em v em ∧ (f v).Blames em x := by
  rw [blames_bind, blames_term, unread_singleton]
  refine or_congr Iff.rfl ⟨?_, ?_⟩
  · rintro ⟨v, em₁, hv, h⟩
    obtain rfl := (term_yields hv).1
    exact ⟨v, hv, h⟩
  · rintro ⟨v, hv, h⟩
    exact ⟨v, em, hv, h⟩

theorem blames_engine_bind {m : Emit Value} {name : Text} :
    (engine pos m >>= fun v => bind name v).Blames em x ↔ m.Fails em.engine x := by
  simp only [bind, blames_bind, blames_engine, blames_modify, and_false, exists_false, or_false]

theorem blames_function_bind {β : Type} {f : ScriptFault} {rest : FunctionRef → Emission β}
    (hf : f ≠ .engine x) : (function pos f >>= rest).Blames em x ↔
      ∃ s, em.scope = some s ∧ (rest s.fn).Blames em x := by
  rw [blames_bind, or_iff_right (blames_function hf)]
  constructor
  · rintro ⟨ref, em₁, href, h⟩
    obtain ⟨rfl, s, hs, rfl⟩ := function_yields href
    exact ⟨s, hs, h⟩
  · rintro ⟨s, hs, h⟩
    refine ⟨s.fn, em, ?_, h⟩
    rw [function, yields_get_bind, hs]
    exact yields_pure.2 ⟨rfl, rfl⟩

theorem blames_request {α : Type} {k : α → Reply} {m : Emit α} :
    (engine pos m).Blames em x ↔ ((k <$> m) em.engine).1 = .error x :=
  blames_engine.trans Engine.reply_error_iff.symm

/-! ### From reports to failures -/

theorem blames_of_asksCall {c : CallForm} {q : Request} (hq : em.AsksCall c q)
    (h : em.engine.reply q = .error x) : (call pos c).Blames em x := by
  cases hq with
  | plain hvs =>
    exact blames_bind.2 (.inr ⟨_, em, hvs, blames_request.2 h⟩)
  | typed hvs =>
    exact blames_bind.2 (.inr ⟨_, em, hvs, blames_request.2 h⟩)

theorem blames_of_asksExpr {e : Expr} {q : Request} (hq : em.AsksExpr e.form q)
    (h : em.engine.reply q = .error x) : (expr e).Blames em x := by
  obtain ⟨epos, form⟩ := e
  cases hq with
  | param hs => exact (blames_function_bind (by simp)).2 ⟨_, hs, blames_request.2 h⟩
  | load hv => exact blames_term_bind.2 (.inr ⟨_, hv, blames_request.2 h⟩)
  | alloc => exact blames_request.2 h
  | call hq => exact blames_of_asksCall hq h
  | cast hv => exact blames_term_bind.2 (.inr ⟨_, hv, blames_request.2 h⟩)

theorem blames_of_asks {s : Stmt} {q : Request} (hq : em.Asks s q)
    (h : em.engine.reply q = .error x) : (stmt s).Blames em x := by
  cases hq with
  | const hv =>
    exact blames_term_bind.2 (.inr ⟨_, hv, blames_engine_bind.2 (Engine.reply_error_iff.1 h)⟩)
  | globalVar => exact blames_engine_bind.2 (Engine.reply_error_iff.1 h)
  | localVar hs =>
    exact (blames_function_bind (by simp)).2
      ⟨_, hs, blames_engine_bind.2 (Engine.reply_error_iff.1 h)⟩
  | bind hq => exact blames_bind.2 (.inl (blames_of_asksExpr hq h))
  | call hq => exact blames_bind.2 (.inl (blames_of_asksCall hq h))
  | print hv => exact blames_term_bind.2 (.inr ⟨_, hv, blames_request.2 h⟩)
  | asm hcode => exact blames_bind.2 (.inr ⟨_, em, hcode, blames_request.2 h⟩)
  | free hv hreg =>
    rw [stmt]
    dsimp only
    rw [blames_get_bind, hv]
    dsimp only
    rw [if_pos hreg]
    exact blames_bind.2 (.inl (blames_request.2 h))
  | ret hs hv =>
    exact (blames_function_bind (by simp)).2
      ⟨_, hs, blames_term_bind.2 (.inr ⟨_, hv, blames_request.2 h⟩)⟩
  | exit hn => exact blames_bind.2 (.inr ⟨_, em, hn, blames_request.2 h⟩)

theorem blames_expr_of_unread {e : Expr} (h : em.Unread e.form.operands x) :
    (expr e).Blames em x := by
  obtain ⟨epos, form⟩ := e
  cases form with
  | param name => exact absurd h unread_nil
  | load value type => exact blames_term_bind.2 (.inl h)
  | alloc type => exact absurd h unread_nil
  | call c => exact blames_bind.2 (.inl (blames_terms.2 h))
  | cast value type => exact blames_term_bind.2 (.inl h)
  | term value => exact blames_term.2 (unread_singleton.1 h)

theorem blames_of_unread {s : Stmt} (h : em.Unread (em.operands s.form) x) :
    (stmt s).Blames em x := by
  obtain ⟨spos, form⟩ := s
  cases form with
  | const name type value => exact blames_term_bind.2 (.inl h)
  | bind name value => exact blames_bind.2 (.inl (blames_expr_of_unread h))
  | call c => exact blames_bind.2 (.inl (blames_bind.2 (.inl (blames_terms.2 h))))
  | print value => exact blames_term_bind.2 (.inl h)
  | ret value =>
    cases hs : em.scope with
    | none =>
      rw [operands, hs] at h
      exact absurd h unread_nil
    | some s =>
      rw [operands, hs] at h
      exact (blames_function_bind (by simp)).2 ⟨s, hs, blames_term_bind.2 (.inl h)⟩
  | globalVar | localVar | asm | free | exit => exact absurd h unread_nil

/-! ### From failures to reports -/

theorem call_reports {c : CallForm} (h : (call pos c).Blames em x) :
    em.Unread c.args x ∨ ∃ q, em.AsksCall c q ∧ em.engine.reply q = .error x := by
  obtain ⟨name, args, type⟩ := c
  obtain hargs | ⟨vs, em₁, hvs, hcall⟩ := blames_bind.1 h
  · exact .inl (blames_terms.1 hargs)
  · obtain rfl := terms_yield hvs
    cases type with
    | none => exact .inr ⟨_, .plain hvs, blames_request.1 hcall⟩
    | some type => exact .inr ⟨_, .typed hvs, blames_request.1 hcall⟩

theorem expr_reports {e : Expr} (h : (expr e).Blames em x) :
    em.Unread e.form.operands x ∨ ∃ q, em.AsksExpr e.form q ∧ em.engine.reply q = .error x := by
  obtain ⟨epos, form⟩ := e
  cases form with
  | param name =>
    obtain ⟨s, hs, h⟩ := (blames_function_bind (by simp)).1 h
    exact .inr ⟨_, .param hs, blames_request.1 h⟩
  | load value type =>
    obtain h | ⟨v, hv, h⟩ := blames_term_bind.1 h
    · exact .inl h
    · exact .inr ⟨_, .load hv, blames_request.1 h⟩
  | alloc type => exact .inr ⟨_, .alloc, blames_request.1 h⟩
  | call c =>
    obtain h | ⟨q, hq, h⟩ := call_reports h
    · exact .inl h
    · exact .inr ⟨q, .call hq, h⟩
  | cast value type =>
    obtain h | ⟨v, hv, h⟩ := blames_term_bind.1 h
    · exact .inl h
    · exact .inr ⟨_, .cast hv, blames_request.1 h⟩
  | term value => exact .inl (unread_singleton.2 (blames_term.1 h))

theorem stmt_reports {s : Stmt} (h : (stmt s).Blames em x) :
    em.Unread (em.operands s.form) x ∨ ∃ q, em.Asks s q ∧ em.engine.reply q = .error x := by
  obtain ⟨spos, form⟩ := s
  cases form with
  | const name type value =>
    obtain h | ⟨v, hv, h⟩ := blames_term_bind.1 h
    · exact .inl h
    · exact .inr ⟨_, .const hv, Engine.reply_error_iff.2 (blames_engine_bind.1 h)⟩
  | globalVar name type =>
    exact .inr ⟨_, .globalVar, Engine.reply_error_iff.2 (blames_engine_bind.1 h)⟩
  | localVar name type =>
    obtain ⟨s, hs, h⟩ := (blames_function_bind (by simp)).1 h
    exact .inr ⟨_, .localVar hs, Engine.reply_error_iff.2 (blames_engine_bind.1 h)⟩
  | bind name value =>
    obtain h | ⟨v, em₁, -, h⟩ := blames_bind.1 h
    · obtain h | ⟨q, hq, h⟩ := expr_reports h
      · exact .inl h
      · exact .inr ⟨q, .bind hq, h⟩
    · exact absurd (blames_modify.1 h) not_false
  | call c =>
    obtain h | ⟨v, em₁, -, h⟩ := blames_bind.1 h
    · obtain h | ⟨q, hq, h⟩ := call_reports h
      · exact .inl h
      · exact .inr ⟨q, .call hq, h⟩
    · -- What a call returned can always be given back.
      obtain ⟨ms, h⟩ := Emit.fails_iff.1 (blames_engine.1 h)
      exact absurd h (Emit.total_release v _ _ _)
  | print value =>
    obtain h | ⟨v, hv, h⟩ := blames_term_bind.1 h
    · exact .inl h
    · exact .inr ⟨_, .print hv, blames_request.1 h⟩
  | asm t =>
    obtain hcode | ⟨c, em₁, hc, hblock⟩ := blames_bind.1 h
    · exact absurd hcode blames_code
    · obtain rfl := code_yields hc
      exact .inr ⟨_, .asm hc, blames_request.1 hblock⟩
  | free name =>
    rw [stmt] at h
    dsimp only at h
    rw [blames_get_bind] at h
    split at h
    · simp at h
    case h_2 v hv =>
      split at h
      case isTrue hreg =>
        obtain h | ⟨u, em₁, -, h⟩ := blames_bind.1 h
        · exact .inr ⟨_, .free hv hreg, blames_request.1 h⟩
        · exact absurd (blames_modify.1 h) not_false
      case isFalse => simp at h
  | ret value =>
    obtain ⟨s, hs, h⟩ := (blames_function_bind (by simp)).1 h
    obtain h | ⟨v, hv, h⟩ := blames_term_bind.1 h
    · refine .inl ?_
      rw [operands, hs]
      exact h
    · exact .inr ⟨_, .ret hs hv, blames_request.1 h⟩
  | exit code =>
    obtain hcode | ⟨n, em₁, hn, hexit⟩ := blames_bind.1 h
    · exact absurd hcode blames_exitCode
    · obtain rfl := exitCode_yields hn
      exact .inr ⟨_, .exit hn, blames_request.1 hexit⟩

/-- A command fails for a cause exactly if it reports the cause. -/
theorem command_blames_iff {cmd : Command} : cmd.emit.Blames em x ↔ em.Reports cmd x := by
  constructor
  · intro h
    cases cmd with
    | enter f =>
      obtain h | ⟨ref, em₁, -, h⟩ := blames_bind.1 h
      · exact .enter (blames_request.1 h)
      · exact absurd (blames_modify.1 h) not_false
    | stmt s =>
      obtain h | ⟨q, hq, h⟩ := stmt_reports h
      · exact .unread h
      · exact .refused hq h
    | leave f =>
      rw [Command.emit, blames_get_bind] at h
      cases hs : em.scope with
      | none =>
        rw [hs] at h
        simp at h
      | some s =>
        rw [hs] at h
        obtain h | ⟨u, em₁, -, h⟩ := blames_bind.1 h
        · exact .leave hs (blames_request.1 h)
        · exact absurd (blames_modify.1 h) not_false
  · intro h
    cases h with
    | enter h =>
      exact blames_bind.2 (.inl (blames_request.2 h))
    | refused hq h => exact blames_of_asks hq h
    | unread h => exact blames_of_unread h
    | leave hs h =>
      rw [Command.emit, blames_get_bind, hs]
      exact blames_bind.2 (.inl (blames_request.2 h))

end Emission

end Assembly.Script
