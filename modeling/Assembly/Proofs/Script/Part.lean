import Assembly.Proofs.Engine.Part
import Assembly.Proofs.Script.Command

/-!
# What statements are made of

A statement looks names up, fails at a position of its own, and asks the engine for something.
`Part ps m` says that `m` is put together from such steps, with the positions in `ps`.  Names are
bound and dropped by the last step of a statement alone, which cannot fail: `Statement ps m`.

Both are derived once, for every expression and every statement.  What holds of the steps and
passes through the ways of putting them together then holds of all statements.

A step may read of the engine only its target, and what it asks for is the operation of a request,
so that facts about requests carry over to scripts.
-/

namespace Assembly

namespace Script

/-! ## Positions -/

/-- The terms that an expression evaluates. -/
def ExprForm.operands : ExprForm → List Term
  | .load value _ | .cast value _ | .term value => [value]
  | .call c => c.args
  | .param _ | .alloc _ => []

/-- The positions in an expression: its own, and those of its terms. -/
def Expr.positions (e : Expr) : List Pos := e.pos :: e.form.operands.map (·.pos)

/-- The positions in a statement. -/
def Stmt.positions (s : Stmt) : List Pos :=
  s.pos :: match s.form with
    | .const _ _ value | .print value | .ret value => [value.pos]
    | .bind _ value => value.positions
    | .call c => c.args.map (·.pos)
    | .exit code => code.toList.map (·.pos)
    | _ => []

namespace Emission

/-! ## Parts -/

/-- What a run goes on with depends on its names, and on the target of the engine at most. -/
def SeesNames {β : Type} (f : Emitter → Emission β) : Prop :=
  ∀ (em : Emitter) (e : Engine), e.target = em.engine.target → f { em with engine := e } = f em

/-- Steps that change no names. -/
inductive Part (ps : List Pos) : {α : Type} → Emission α → Prop
  | pure {α : Type} (a : α) : Part ps (Pure.pure a : Emission α)
  | fail {α : Type} {pos : Pos} (h : pos ∈ ps) (f : ScriptFault) : Part ps (fail pos f : Emission α)
  | bind {α β : Type} {m : Emission α} {f : α → Emission β} (hm : Part ps m)
    (hf : ∀ a, Part ps (f a)) : Part ps (m >>= f)
  | reading {β : Type} {f : Emitter → Emission β} (hsees : SeesNames f)
    (hf : ∀ em, Part ps (f em)) : Part ps (MonadState.get >>= f)
  | engine {α : Type} {pos : Pos} (h : pos ∈ ps) {m : Emit α} {q : Request} (hq : q.isInner)
    (hm : q.AsksFor m) : Part ps (engine pos m)

namespace Part

variable {α : Type} {ps qs : List Pos} {pos : Pos}

theorem mono {m : Emission α} (hm : Part ps m) (h : ps ⊆ qs) : Part qs m := by
  induction hm with
  | pure a => exact pure a
  | fail hpos f => exact fail (h hpos) f
  | bind _ _ ihm ihf => exact ihm.bind ihf
  | reading hsees _ ih => exact reading hsees ih
  | engine hpos hq hm => exact engine (h hpos) hq hm

theorem ite {c : Prop} [Decidable c] {m n : Emission α} (hm : Part ps m) (hn : Part ps n) :
    Part ps (if c then m else n) := by
  split
  · exact hm
  · exact hn

theorem value (h : pos ∈ ps) {m : Emit Value} (q : Request) (hm : q.emit = Reply.value <$> m)
    (hq : q.isInner) : Part ps (Emission.engine pos m) :=
  engine h hq (Request.asksFor_value hm)

theorem done (h : pos ∈ ps) {m : Emit Unit} (q : Request) (hm : q.emit = Reply.ofUnit <$> m)
    (hq : q.isInner) : Part ps (Emission.engine pos m) :=
  engine h hq (Request.asksFor_unit hm)

theorem release (h : pos ∈ ps) (v : Value) : Part ps (Emission.engine pos (Emit.release v)) :=
  done h (.release v) rfl rfl

/-! ## Terms and expressions -/

theorem stringText (h : pos ∈ ps) (t : Text) : Part ps (Emission.stringText pos t) := by
  refine ite ?_ (pure t)
  cases Text.unquote? t with
  | some u => exact pure u
  | none => exact fail h _

theorem term {x : Term} (h : x.pos ∈ ps) : Part ps (Emission.term x) := by
  rw [Emission.term]
  cases x.form with
  | string t => exact (stringText h t).bind fun u => pure _
  | number t =>
    dsimp only
    cases Value.ofNumeral? t with
    | none => exact fail h _
    | some v =>
      refine ite (pure v) (reading (fun em e htarget => ?_) fun em => pure _)
      show Pure.pure (v.withType e.target.wordType) = _
      rw [htarget]
  | name n =>
    refine reading (fun _ _ _ => rfl) fun em => ?_
    cases em.lookup n with
    | none => exact fail h _
    | some v => exact pure v

theorem terms {xs : List Term} (h : xs.map (·.pos) ⊆ ps) : Part ps (xs.mapM Emission.term) := by
  induction xs with
  | nil => exact pure []
  | cons x xs ih =>
    obtain ⟨hx, hxs⟩ := List.cons_subset.mp h
    rw [List.mapM_cons]
    exact (term hx).bind fun v => (ih hxs).bind fun vs => pure (v :: vs)

theorem call {c : CallForm} (h : pos ∈ ps) (hargs : c.args.map (·.pos) ⊆ ps) :
    Part ps (Emission.call pos c) := by
  refine (terms hargs).bind fun args => ?_
  cases c.type with
  | none => exact value h (.call c.name args) rfl rfl
  | some type => exact value h (.callAs c.name args type) rfl rfl

theorem function (h : pos ∈ ps) (f : ScriptFault) : Part ps (Emission.function pos f) := by
  refine reading (fun _ _ _ => rfl) fun em => ?_
  cases em.scope with
  | none => exact fail h f
  | some s => exact pure s.fn

theorem expr (x : Expr) : Part x.positions (Emission.expr x) := by
  obtain ⟨pos, form⟩ := x
  have hpos : pos ∈ Expr.positions ⟨pos, form⟩ := List.mem_cons_self
  have hoperands : form.operands.map (·.pos) ⊆ Expr.positions ⟨pos, form⟩ :=
    List.subset_cons_self _ _
  rw [Emission.expr]
  cases form with
  | param name =>
    exact (function hpos _).bind fun f => value hpos (.param f name) rfl rfl
  | load operand type =>
    refine (term (hoperands List.mem_cons_self)).bind fun v => ?_
    exact value hpos (.load v (type.getD [])) rfl rfl
  | alloc type => exact value hpos (.alloc type) rfl rfl
  | call c => exact call hpos hoperands
  | cast operand type =>
    refine (term (hoperands List.mem_cons_self)).bind fun v => ?_
    exact value hpos (.cast v type) rfl rfl
  | term operand => exact term (hoperands List.mem_cons_self)

theorem code (h : pos ∈ ps) (t : Text) : Part ps (Emission.code pos t) := by
  refine (stringText h t).bind fun u => reading (fun em e htarget => ?_) fun em => ?_
  · have hhole : Emitter.holeText { em with engine := e } = em.holeText := by
      funext name size
      rw [Emitter.holeText, Emitter.holeText, htarget]
      rfl
    rw [hhole]
  · cases Template.fill em.holeText (Template.pieces u) with
    | ok c => exact pure c
    | error name => exact fail h _

theorem exitCode {x : Option Term} (h : x.toList.map (·.pos) ⊆ ps) :
    Part ps (Emission.exitCode x) := by
  cases x with
  | none => exact pure 0
  | some x =>
    have hx : x.pos ∈ ps := h List.mem_cons_self
    rw [Emission.exitCode]
    split
    · split
      · exact pure _
      · exact fail hx _
    · exact fail hx _

end Part

/-! ## Statements -/

/-- The change is one of the names alone. -/
def Renames (k : Emitter → Emitter) : Prop :=
  ∀ (em : Emitter) (e : Engine), k { em with engine := e } = { k em with engine := e }

theorem Renames.engine {k : Emitter → Emitter} (h : Renames k) (em : Emitter) :
    (k em).engine = em.engine := by
  have hsame : k em = { k em with engine := em.engine } := h em em.engine
  rw [hsame]

theorem renames_bind (name : Text) (v : Value) : Renames (·.bind name v) := by
  intro em e
  simp only [Emitter.bind]
  cases em.scope <;> rfl

theorem renames_unbind (name : Text) : Renames (·.unbind name) := by
  intro em e
  simp only [Emitter.unbind]
  cases em.scope with
  | none => rfl
  | some s =>
    dsimp only
    split <;> rfl

/-- A part, after which the names may change. -/
inductive Statement (ps : List Pos) : Emission Unit → Prop
  | part {m : Emission Unit} (h : Part ps m) : Statement ps m
  | renames {k : Emitter → Emitter} (h : Renames k) : Statement ps (modify k)
  | bind {α : Type} {m : Emission α} {f : α → Emission Unit} (hm : Part ps m)
    (hf : ∀ a, Statement ps (f a)) : Statement ps (m >>= f)
  | reading {f : Emitter → Emission Unit} (hsees : SeesNames f) (hf : ∀ em, Statement ps (f em)) :
    Statement ps (MonadState.get >>= f)

namespace Statement

variable {ps : List Pos} {pos : Pos}

theorem bindName (name : Text) (v : Value) : Statement ps (Emission.bind name v) :=
  renames (renames_bind name v)

theorem binding (h : pos ∈ ps) {m : Emit Value} (q : Request) (hm : q.emit = Reply.value <$> m)
    (hq : q.isInner) (name : Text) :
    Statement ps (Emission.engine pos m >>= Emission.bind name) :=
  bind (.value h q hm hq) fun v => bindName name v

theorem free (h : pos ∈ ps) (name : Text) : Statement ps (Emission.stmt ⟨pos, .free name⟩) := by
  refine reading (fun _ _ _ => rfl) fun em => ?_
  cases em.lookup name with
  | none => exact part (.fail h _)
  | some v =>
    dsimp only
    split
    · exact bind (.release h v) fun _ => renames (renames_unbind name)
    · exact part (.fail h _)

theorem stmt (s : Stmt) : Statement s.positions (Emission.stmt s) := by
  obtain ⟨pos, form⟩ := s
  have hpos : pos ∈ Stmt.positions ⟨pos, form⟩ := List.mem_cons_self
  have hsecond : ∀ {p : Pos} {rest : List Pos}, p ∈ pos :: p :: rest :=
    List.mem_cons_of_mem _ List.mem_cons_self
  rw [Emission.stmt]
  cases form with
  | const name type value =>
    refine bind (.term hsecond) fun lit => ?_
    exact binding hpos (.declareConst name lit (type.getD [])) rfl rfl name
  | globalVar name type => exact binding hpos (.declareGlobal name type) rfl rfl name
  | localVar name type =>
    refine bind (.function hpos _) fun f => ?_
    exact binding hpos (.declareLocal f name type) rfl rfl name
  | bind name value =>
    exact bind ((Part.expr value).mono (List.subset_cons_self _ _)) fun v => bindName name v
  | call c =>
    exact bind (.call hpos (List.subset_cons_self _ _)) fun r => part (.release hpos r)
  | print value =>
    exact bind (.term hsecond) fun v => part (.done hpos (.print v) rfl rfl)
  | asm t => exact bind (.code hpos t) fun c => part (.done hpos (.rawBlock c) rfl rfl)
  | free name => exact free hpos name
  | ret value =>
    refine bind (.function hpos _) fun f => bind (.term hsecond) fun v => ?_
    exact part (.done hpos (.returnValue f v) rfl rfl)
  | exit c =>
    refine bind (.exitCode (List.subset_cons_self _ _)) fun n => ?_
    exact part (.done hpos (.exit n) rfl rfl)

end Statement

end Emission

end Script

end Assembly
