import Assembly.Build.Artifacts
import Assembly.Build.Workspace
import Assembly.Proofs.Engine.Confined
import Assembly.Proofs.Script.Acceptance
import Assembly.Proofs.Script.Command

/-!
# The functions of a script

A script that was read has its locals and returns in functions, and its functions side by side.
So the run of it is always in the function that is open in the engine: statements stay there,
and a function that was begun is ended.  `parse_framed` says what follows for accepted scripts:
no run of them fails over a function that is open or ended, or over a local or a return outside
of functions, and no successful run leaves a function open.
-/

namespace Assembly

/-! ## Messages -/

/-- Every message of an ordinary refusal has a colon, or it begins otherwise than those about
statements outside of functions. -/
theorem EmitError.message_of_isOrdinary {x : EmitError} (h : x.isOrdinary) :
    58 ∈ x.message ∨ x.message.head? = some 99 ∨ x.message.head? = some 105 := by
  cases x with
  | functionOpen | functionEnded | raised => cases h
  | loadString => exact .inr (.inl rfl)
  | badNumeral => exact .inr (.inr rfl)
  | notLiteral | returnString | argument | parameter =>
    left
    simp only [message, List.mem_append]
    have hcolon : 58 ∈ Text.ofString ": expected a literal, got " ∧
        58 ∈ Text.ofString ": cannot return a string literal" ∧
        58 ∈ Text.ofString ": argument " ∧ 58 ∈ Text.ofString ": parameter " := by decide
    tauto
  | _ =>
    left
    simp only [message, List.append_assoc]
    exact List.mem_append_left _ (by decide)

namespace Script

namespace ScriptFault

/-- Whether a fault may come up when an accepted script is run. -/
def isOrdinary : ScriptFault → Bool
  | localOutside | returnOutside => false
  | lexical _ | unexpected _ | widthRange _ | widthUnsupported _ => false
  | engine c => c.isOrdinary
  | _ => true

theorem message_ne_of_isOrdinary {f : ScriptFault} (h : f.isOrdinary) :
    f.message ≠ localOutside.message ∧ f.message ≠ returnOutside.message := by
  have hcomma : 44 ∉ localOutside.message ∧ 44 ∉ returnOutside.message := by decide
  have hcolon : 58 ∉ localOutside.message ∧ 58 ∉ returnOutside.message := by decide
  have hhead : localOutside.message.head? = some 108 ∧ returnOutside.message.head? = some 114 := by
    decide
  have hfirst : ∀ {c : UInt8}, f.message.head? = some c → c ≠ 108 → c ≠ 114 →
      f.message ≠ localOutside.message ∧ f.message ≠ returnOutside.message := by
    intro c hc hl hr
    constructor
    · intro he
      rw [he, hhead.1] at hc
      exact hl (Option.some.inj hc).symm
    · intro he
      rw [he, hhead.2] at hc
      exact hr (Option.some.inj hc).symm
  cases f with
  | localOutside | returnOutside | lexical | unexpected | widthRange | widthUnsupported => cases h
  | paramOutside => exact hfirst (c := 112) rfl (by decide) (by decide)
  | badString => exact hfirst (c := 105) rfl (by decide) (by decide)
  | undefinedName => exact hfirst (c := 117) rfl (by decide) (by decide)
  | undefinedInAsm => exact hfirst (c := 117) rfl (by decide) (by decide)
  | exitCode => exact hfirst (c := 101) rfl (by decide) (by decide)
  | notRegister name kind =>
    have hmem : 44 ∈ (notRegister name kind).message :=
      List.mem_append_right _ (by decide)
    exact ⟨fun he => hcomma.1 (he ▸ hmem), fun he => hcomma.2 (he ▸ hmem)⟩
  | engine c =>
    rcases EmitError.message_of_isOrdinary h with hmem | hc | hc
    · exact ⟨fun he => hcolon.1 (he ▸ hmem), fun he => hcolon.2 (he ▸ hmem)⟩
    · exact hfirst (c := 99) hc (by decide) (by decide)
    · exact hfirst (c := 105) hc (by decide) (by decide)

end ScriptFault

/-! ## Where a run is -/

namespace Emitter

/-- The function that the run is in is the one that is open in the engine. -/
def InStep (em : Emitter) : Prop := em.engine.current.map (·.id) = em.scope.map (·.fn.id)

/-- Neither the run nor the engine has gone to another function. -/
def SamePlace (em em' : Emitter) : Prop :=
  em'.scope.map (·.fn) = em.scope.map (·.fn) ∧
    em'.engine.current.map (·.id) = em.engine.current.map (·.id)

/-- No function is open, neither in the run nor in the engine. -/
def Outside (em : Emitter) : Prop := em.scope = none ∧ em.engine.current = none

variable {em em' em'' : Emitter}

theorem SamePlace.refl (em : Emitter) : em.SamePlace em := ⟨rfl, rfl⟩

theorem SamePlace.trans (h : em.SamePlace em') (h' : em'.SamePlace em'') : em.SamePlace em'' :=
  ⟨h'.1.trans h.1, h'.2.trans h.2⟩

theorem InStep.congr (h : em.InStep) (hs : em.SamePlace em') : em'.InStep := by
  have hids : em'.scope.map (·.fn.id) = em.scope.map (·.fn.id) := by
    simpa [Option.map_map, Function.comp_def] using congrArg (Option.map FunctionRef.id) hs.1
  rw [InStep, hs.2, hids]
  exact h

theorem SamePlace.scope_eq_none (h : em.SamePlace em') : em'.scope = none ↔ em.scope = none := by
  rw [← Option.map_eq_none_iff (f := (·.fn)), h.1, Option.map_eq_none_iff]

theorem samePlace_bind (em : Emitter) (name : Text) (v : Value) : em.SamePlace (em.bind name v) := by
  rw [Emitter.bind]
  cases hs : em.scope with
  | none => exact ⟨by rw [hs], rfl⟩
  | some s => exact ⟨by rw [hs]; rfl, rfl⟩

theorem samePlace_unbind (em : Emitter) (name : Text) : em.SamePlace (em.unbind name) := by
  rw [Emitter.unbind]
  cases hs : em.scope with
  | none => exact ⟨by rw [hs], rfl⟩
  | some s =>
    dsimp only
    split
    · exact ⟨by rw [hs]; rfl, rfl⟩
    · exact ⟨by rw [hs], rfl⟩

end Emitter

namespace Emission

open Emitter

variable {α β : Type} {em : Emitter}

/-- From a state, the part of a run stays in its function, and fails for ordinary reasons only. -/
def OrderlyAt (m : Emission α) (em : Emitter) : Prop :=
  em.SamePlace (m.outcome em).2 ∧ ∀ x, (m.outcome em).1 = .error x → x.fault.isOrdinary

namespace OrderlyAt

theorem pure (a : α) : (Pure.pure a : Emission α).OrderlyAt em :=
  ⟨.refl em, fun _ hx => by cases hx⟩

theorem fail {pos : Pos} {f : ScriptFault} (h : f.isOrdinary) :
    (Emission.fail pos f : Emission α).OrderlyAt em :=
  ⟨.refl em, fun _ hx => by cases hx; exact h⟩

theorem bind {m : Emission α} {f : α → Emission β} (hm : m.OrderlyAt em)
    (hf : ∀ a em', em.SamePlace em' → (f a).OrderlyAt em') : (m >>= f).OrderlyAt em := by
  obtain ⟨hplace, hrefusal⟩ := hm
  rw [OrderlyAt, outcome_bind]
  rcases hr : m.outcome em with ⟨x | a, em'⟩
  · rw [hr] at hplace hrefusal
    exact ⟨hplace, fun y hy => by cases hy; exact hrefusal _ rfl⟩
  · rw [hr] at hplace
    exact ⟨hplace.trans (hf a em' hplace).1, (hf a em' hplace).2⟩

theorem get {f : Emitter → Emission β} (hf : (f em).OrderlyAt em) :
    (MonadState.get >>= f).OrderlyAt em := hf

theorem modifying {f : Emitter → Emitter} (h : em.SamePlace (f em)) :
    (modify f : Emission Unit).OrderlyAt em :=
  ⟨h, fun _ hx => by cases hx⟩

theorem ite {c : Prop} [Decidable c] {m n : Emission α} (hm : m.OrderlyAt em)
    (hn : n.OrderlyAt em) : (if c then m else n).OrderlyAt em := by
  split
  · exact hm
  · exact hn

theorem engine {m : Emit α} (pos : Pos) (h : m.ConfinedAt em.engine) :
    (Emission.engine pos m).OrderlyAt em := by
  refine ⟨⟨rfl, h.id⟩, fun x hx => ?_⟩
  have hmap : ((m em.engine).1.mapError fun c => (⟨.engine c, pos, []⟩ : ScriptError)) = .error x :=
    hx
  cases hr : (m em.engine).1 with
  | ok a =>
    rw [hr] at hmap
    cases hmap
  | error c =>
    rw [hr] at hmap
    cases hmap
    exact h.2 c hr

theorem value (pos : Pos) {m : Emit Value} (q : Request) (h : q.emit = Reply.value <$> m)
    (hq : q.isPart) : (Emission.engine pos m).OrderlyAt em :=
  engine pos (Emit.Confined.of_asksFor hq (Request.asksFor_value h) _)

theorem done (pos : Pos) {m : Emit Unit} (q : Request) (h : q.emit = Reply.ofUnit <$> m)
    (hq : q.isPart) : (Emission.engine pos m).OrderlyAt em :=
  engine pos (Emit.Confined.of_asksFor hq (Request.asksFor_unit h) _)

/-! ## Statements -/

theorem stringText (pos : Pos) (t : Text) : (Emission.stringText pos t).OrderlyAt em := by
  refine ite ?_ (pure t)
  cases Text.unquote? t with
  | some u => exact pure u
  | none => exact fail rfl

theorem term (x : Term) : (Emission.term x).OrderlyAt em := by
  rw [Emission.term]
  cases x.form with
  | string t => exact (stringText x.pos t).bind fun u _ _ => pure _
  | number t =>
    dsimp only
    cases Value.ofNumeral? t with
    | none => exact fail rfl
    | some v => exact ite (pure v) (get (pure _))
  | name n =>
    refine get ?_
    cases em.lookup n with
    | none => exact fail rfl
    | some v => exact pure v

theorem terms (xs : List Term) : (xs.mapM Emission.term).OrderlyAt em := by
  induction xs generalizing em with
  | nil => exact pure []
  | cons x xs ih =>
    rw [List.mapM_cons]
    exact (term x).bind fun v _ _ => ih.bind fun vs _ _ => pure (v :: vs)

theorem call (pos : Pos) (c : CallForm) : (Emission.call pos c).OrderlyAt em := by
  refine (terms c.args).bind fun args em' _ => ?_
  cases c.type with
  | none => exact value pos (.call c.name args) rfl rfl
  | some type => exact value pos (.callAs c.name args type) rfl rfl

/-- An operation on the function that the run is in; there may be none if its fault is ordinary. -/
theorem function {pos : Pos} {f : ScriptFault} {rest : FunctionRef → Emission β} (hstep : em.InStep)
    (hnone : em.scope = none → f.isOrdinary)
    (hrest : ∀ ref, Emit.Opens ref em.engine → (rest ref).OrderlyAt em) :
    (Emission.function pos f >>= rest).OrderlyAt em := by
  rw [OrderlyAt, outcome_bind]
  obtain ⟨engine, _, scope⟩ := em
  cases scope with
  | none => exact ⟨.refl _, fun x hx => by cases hx; exact hnone rfl⟩
  | some s => exact hrest s.fn hstep

theorem expr (x : Expr) (hstep : em.InStep) : (Emission.expr x).OrderlyAt em := by
  rw [Emission.expr]
  cases x.form with
  | param name =>
    refine function hstep (fun _ => rfl) fun ref href => engine _ ?_
    exact Emit.onFrame_confined (q := .param ref name) rfl (.param (List.Subset.refl _) name) href
  | load x type => exact (term x).bind fun v _ _ => value _ (.load v _) rfl rfl
  | alloc type => exact value _ (.alloc type) rfl rfl
  | call c => exact call _ c
  | cast x type => exact (term x).bind fun v _ _ => value _ (.cast v type) rfl rfl
  | term value => exact term value

theorem code (pos : Pos) (t : Text) : (Emission.code pos t).OrderlyAt em := by
  refine (stringText pos t).bind fun u em' _ => get ?_
  cases Template.fill em'.holeText (Template.pieces u) with
  | ok c => exact pure c
  | error name => exact fail rfl

theorem exitCode (c : Option Term) : (Emission.exitCode c).OrderlyAt em := by
  cases c with
  | none => exact pure 0
  | some x =>
    rw [Emission.exitCode]
    split
    · split
      · exact pure _
      · exact fail rfl
    · exact fail rfl

theorem bindName (name : Text) (v : Value) : (Emission.bind name v).OrderlyAt em :=
  modifying (em.samePlace_bind name v)

theorem stmt {s : Stmt} (hstep : em.InStep)
    (htop : em.scope = none → topFault? (.stmt s) = none) : (Emission.stmt s).OrderlyAt em := by
  obtain ⟨pos, form⟩ := s
  rw [Emission.stmt]
  cases form with
  | const name type x =>
    refine (term x).bind fun lit _ _ => ?_
    exact (value _ (.declareConst name lit _) rfl rfl).bind fun v _ _ => bindName name v
  | globalVar name type =>
    exact (value _ (.declareGlobal name type) rfl rfl).bind fun v _ _ => bindName name v
  | localVar name type =>
    refine function hstep (fun hnone => by cases htop hnone) fun ref href => ?_
    exact (engine _ (Emit.declareLocal_confined href name type)).bind fun v _ _ => bindName name v
  | bind name value => exact (expr value hstep).bind fun v _ _ => bindName name v
  | call c => exact (call _ c).bind fun r _ _ => done _ (.release r) rfl rfl
  | print value => exact (term value).bind fun v _ _ => done _ (.print v) rfl rfl
  | asm t => exact (code _ t).bind fun c _ _ => done _ (.rawBlock c) rfl rfl
  | free name =>
    refine get ?_
    cases em.lookup name with
    | none => exact fail rfl
    | some v =>
      refine ite ((done _ (.release v) rfl rfl).bind fun _ em' _ => ?_) (fail rfl)
      exact modifying (em'.samePlace_unbind name)
  | ret value =>
    refine function hstep (fun hnone => by cases htop hnone) fun ref href => ?_
    refine (term value).bind fun v em' hplace => engine _ ?_
    exact Emit.onFrame_confined (q := .returnValue ref v) rfl (.returnValue (List.Subset.refl _))
      (hplace.2.trans href)
  | exit c => exact (exitCode c).bind fun n _ _ => done _ (.exit n) rfl rfl

theorem stmts (ss : List Stmt) (hstep : em.InStep) (hin : em.scope ≠ none) :
    (ss.forM Emission.stmt).OrderlyAt em := by
  induction ss generalizing em with
  | nil => exact pure ()
  | cons s ss ih =>
    refine (stmt hstep fun hnone => absurd hnone hin).bind fun _ em' hplace => ?_
    exact ih (hstep.congr hplace) (mt hplace.scope_eq_none.mp hin)

end OrderlyAt

/-! ## Items -/

/-- From outside of functions, the part of a run fails for ordinary reasons, or it ends outside. -/
def FramedAt (m : Emission Unit) (em : Emitter) : Prop :=
  match m.outcome em with
  | (.ok _, em') => em'.Outside
  | (.error x, _) => x.fault.isOrdinary

theorem framed_stmt {s : Stmt} (h : topFault? (.stmt s) = none) (hem : em.Outside) :
    (stmt s).FramedAt em := by
  have hstep : em.InStep := by rw [InStep, hem.1, hem.2]; rfl
  obtain ⟨hplace, hrefusal⟩ : (stmt s).OrderlyAt em := .stmt hstep fun _ => h
  rw [FramedAt]
  rcases hr : (stmt s).outcome em with ⟨x | u, em'⟩
  · rw [hr] at hrefusal
    exact hrefusal x rfl
  · rw [hr] at hplace
    refine ⟨hplace.scope_eq_none.mpr hem.1, ?_⟩
    have hid := hplace.2
    rwa [hem.2, Option.map_none, Option.map_eq_none_iff] at hid

theorem framed_func (f : Func) (hem : em.Outside) : (func f).FramedAt em := by
  rw [FramedAt, func, outcome_bind]
  have hbegin : (engine f.pos (Emit.beginFunction f.name f.signature)).outcome em =
      ((Emit.beginFunction f.name f.signature em.engine).1.mapError fun c => ⟨.engine c, f.pos, []⟩,
        { em with engine :=
          em.engine.makeAll (Emit.beginFunction f.name f.signature em.engine).2 }) := rfl
  rw [hbegin]
  cases hr : (Emit.beginFunction f.name f.signature em.engine).1 with
  | error c => exact Emit.beginFunction_ordinary hem.2 hr
  | ok ref =>
    have hopens := Emit.opens_of_beginFunction (Prod.ext hr rfl)
    generalize em.engine.makeAll (Emit.beginFunction f.name f.signature em.engine).2 = e at hopens
    dsimp only [Except.mapError]
    rw [outcome_inScope, outcome_bind]
    -- The body runs in the function that was begun, so this function is there to be ended.
    obtain ⟨hplace, hrefusal⟩ :
        (f.body.forM stmt).OrderlyAt { em with engine := e, scope := some ⟨ref, []⟩ } :=
      .stmts f.body hopens (Option.some_ne_none _)
    rcases hbody : (f.body.forM stmt).outcome { em with engine := e, scope := some ⟨ref, []⟩ } with
      ⟨x | u, em'⟩
    · rw [hbody] at hrefusal
      exact hrefusal x rfl
    · rw [hbody] at hplace
      obtain ⟨ms, hend, hnone⟩ := Emit.endFunction_of_opens (hplace.2.trans hopens)
      have hyields : (engine f.pos (Emit.endFunction ref)).Yields em' ()
          { em' with engine := em'.engine.makeAll ms } := yields_engine.mpr ⟨ms, hend, rfl⟩
      rw [Yields] at hyields
      dsimp only
      rw [hyields]
      exact ⟨rfl, hnone⟩

/-- From outside of functions, items that may stand there fail for ordinary reasons, or the run
ends outside. -/
theorem framed_items {is : List Item} (h : ∀ i ∈ is, topFault? i = none) (hem : em.Outside) :
    (is.forM item).FramedAt em := by
  induction is generalizing em with
  | nil => exact hem
  | cons i is ih =>
    have hfirst : (item i).FramedAt em := by
      cases i with
      | func f => exact framed_func f hem
      | stmt s => exact framed_stmt (h _ List.mem_cons_self) hem
    rw [FramedAt] at hfirst
    show (item i >>= fun _ => is.forM item).FramedAt em
    rw [FramedAt, outcome_bind]
    rcases hr : (item i).outcome em with ⟨x | u, em'⟩
    · rw [hr] at hfirst
      exact hfirst
    · rw [hr] at hfirst
      exact ih (fun j hj => h j (List.mem_cons_of_mem i hj)) hfirst

end Emission

/-! ## Accepted scripts -/

/-- The run of an accepted script, from a state outside of functions. -/
theorem framed_of_parse {source : Text} {s : Script} (h : parse source = .ok s) (file : Text)
    {e : Engine} (he : e.current = none) :
    match { s with file := file }.emit e with
    | (.ok _, e') => e'.current = none
    | (.error x, _) => x.fault.isOrdinary := by
  obtain ⟨_, _, _, _, -, -, -, htop, -⟩ := parse_eq_ok_iff.mp h
  have hframed : (s.items.forM Emission.item).FramedAt (.new e) :=
    Emission.framed_items htop ⟨rfl, he⟩
  have hrun : { s with file := file }.emit e =
      (((s.items.forM Emission.item).outcome (.new e)).1.mapError fun x => { x with file := file },
        ((s.items.forM Emission.item).outcome (.new e)).2.engine) := rfl
  rw [Emission.FramedAt] at hframed
  rw [hrun]
  rcases hr : (s.items.forM Emission.item).outcome (.new e) with ⟨x | u, em'⟩
  · rw [hr] at hframed
    exact hframed
  · rw [hr] at hframed
    exact hframed.2

end Script

/-! ## Builds -/

namespace Build

variable {ε α β : Type} {logger : Logger (StateM Workspace)} {o : BuildOptions}

def isUnended : BuildError ε → Bool
  | .unended _ => true
  | _ => false

/-- Whether a build ends with the complaint that a function was not ended. -/
def complains : Except (BuildError ε) α → Bool
  | .error x => isUnended x
  | .ok _ => false

/-- Whatever the workspace, the part of a build does not end with that complaint. -/
def Silent (m : StateM Workspace (Except (BuildError ε) α)) : Prop :=
  ∀ w, complains (m w).1 = false

theorem Silent.pure {r : Except (BuildError ε) α} (h : complains r = false) :
    Silent (Pure.pure r : StateM Workspace _) := fun _ => h

theorem Silent.bind (m : StateM Workspace β) {f : β → StateM Workspace (Except (BuildError ε) α)}
    (hf : ∀ b, Silent (f b)) : Silent (m >>= f) := fun w => hf (m w).1 (m w).2

theorem Silent.passing {m : StateM Workspace (Except (BuildError ε) β)} (hm : Silent m)
    {f : Except (BuildError ε) β → StateM Workspace (Except (BuildError ε) α)}
    (hf : ∀ r, complains r = false → Silent (f r)) : Silent (m >>= f) :=
  fun w => hf (m w).1 (hm w) (m w).2

theorem silent_emit {p : Program ε}
    (h : ∀ u, (p (.new o.target o.strict)).1 = .ok u → (p (.new o.target o.strict)).2.current = none) :
    Silent (emit logger o p) := by
  refine .bind _ fun _ => .bind _ fun _ => ?_
  split
  · exact .pure rfl
  case h_2 u f hok hcurrent =>
    rw [h u hok] at hcurrent
    cases hcurrent
  · exact .pure rfl

theorem silent_useTools (tc : Toolchain) (done : Artifacts) :
    Silent (useTools logger o tc done : StateM Workspace (Except (BuildError ε) Artifacts)) := by
  refine .bind _ fun missing => ?_
  split
  · refine .bind _ fun _ => .bind _ fun r => ?_
    split
    · exact .pure rfl
    · dsimp only
      split
      · exact .pure rfl
      · split
        · exact .pure rfl
        · refine .bind _ fun _ => .bind _ fun r => ?_
          split
          · exact .pure rfl
          · exact .bind _ fun _ => .pure rfl
  · exact .bind _ fun _ => .pure rfl

theorem silent_run {p : Program ε}
    (h : ∀ u, (p (.new o.target o.strict)).1 = .ok u → (p (.new o.target o.strict)).2.current = none) :
    Silent (run logger o p) := by
  refine .bind _ fun made => ?_
  split
  · exact .pure rfl
  · refine .passing (silent_emit h) fun r hr => ?_
    split
    case h_1 x => exact .pure hr
    case h_2 e =>
      refine .bind _ fun written => ?_
      split
      · exact .pure rfl
      · refine .bind _ fun _ => ?_
        split
        · exact .pure rfl
        · exact silent_useTools _ _

end Build

/-- No run of an accepted script, on any engine without an open function, fails over a function
that is open or has ended, or with the message for a local or a return outside of functions.  A
run that succeeds leaves no function open, and no build of the script complains about one. -/
theorem Script.parse_framed {source : Text} {accepted : Script} (h : parse source = .ok accepted)
    (file : Text) :
    let s : Script := { accepted with file := file }
    (∀ e : Engine, e.current = none →
      (∀ x, (s.emit e).1 = .error x →
        (∀ c, x.cause = some c →
          (∀ name current, c.root ≠ .functionOpen name current) ∧
          ∀ name, c.root ≠ .functionEnded name) ∧
        x.fault.message ≠ "local outside of a function" ∧
        x.fault.message ≠ "return outside of a function") ∧
      ((s.emit e).1 = .ok () → (s.emit e).2.current = none)) ∧
    ∀ (logger : Logger (StateM Workspace)) (o : BuildOptions) (w : Workspace) (function : Text),
      (Build.run logger o s.emit w).1 ≠ .error (.unended function) := by
  intro s
  have hemit : ∀ e : Engine, e.current = none → ∀ u, (s.emit e).1 = .ok u →
      (s.emit e).2.current = none := by
    intro e he u hu
    have hframed := framed_of_parse h file he
    change (match s.emit e with | (.ok _, e') => _ | (.error x, _) => _) at hframed
    generalize s.emit e = r at hframed hu
    obtain ⟨x | v, e'⟩ := r
    · cases hu
    · exact hframed
  refine ⟨fun e he => ⟨fun x hx => ?_, hemit e he ()⟩, fun logger o w function hrun => ?_⟩
  · have hord : x.fault.isOrdinary := by
      have hframed := framed_of_parse h file he
      change (match s.emit e with | (.ok _, e') => _ | (.error x, _) => _) at hframed
      generalize s.emit e = r at hframed hx
      obtain ⟨y | v, e'⟩ := r
      · cases hx
        exact hframed
      · cases hx
    refine ⟨fun c hc => ?_, ScriptFault.message_ne_of_isOrdinary hord⟩
    have hcause : c.isOrdinary := by
      rw [ScriptError.cause] at hc
      split at hc
      case h_1 c' hfault =>
        cases hc
        rwa [hfault] at hord
      case h_2 => cases hc
    rw [EmitError.isOrdinary] at hcause
    constructor
    · intro name current hroot
      rw [hroot] at hcause
      cases hcause
    · intro name hroot
      rw [hroot] at hcause
      cases hcause
  · have hsilent : Build.Silent (Build.run logger o s.emit) :=
      Build.silent_run (hemit (.new o.target o.strict) rfl)
    have hend := hsilent w
    rw [hrun] at hend
    cases hend

/-- A function with a local, a parameter and a return, between statements outside of it. -/
def Script.framedSource : Text :=
  "global g int32 func f(x int32) \x7b local a int32 let p = param x return p \x7d let r = call f(7)"

theorem Script.parse_framed_source :
    ∃ s, parse framedSource = .ok s ∧ (s.emit (.new .bits16 true)).1 = .ok () ∧
      (s.emit (.new .bits16 true)).2.current = none := by
  have hrun : ((parse framedSource).toOption.any fun s =>
      (s.emit (.new .bits16 true)).1 = .ok ()) = true := by decide +kernel
  cases hparse : parse framedSource with
  | error x =>
    rw [hparse] at hrun
    cases hrun
  | ok s =>
    rw [hparse] at hrun
    have hok : (s.emit (.new .bits16 true)).1 = .ok () := of_decide_eq_true hrun
    exact ⟨s, rfl, hok, ((parse_framed hparse s.file).1 (.new .bits16 true) rfl).2 hok⟩

end Assembly
