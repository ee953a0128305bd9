import Assembly.Proofs.Engine.Integral
import Assembly.Proofs.Script.Command

/-!
# Integer literals in scripts

A number in a script has the type of its literal, unless the statement asks for another one.  So a
script without floating types, whose numbers are all whole, emits nothing floating as long as the
numbers are typed as integers; and a whole number that is typed as floating, because it has
underscores or does not fit a word, is emitted as floating by the statement that uses it.
-/

namespace Assembly.Script

open Text Numeral

/-! ## Numbers and types of a script -/

def Term.numbers (x : Term) : List Text :=
  match x.form with
  | .number t => [t]
  | _ => []

def CallForm.numbers (c : CallForm) : List Text := c.args.flatMap Term.numbers

namespace ExprForm

def numbers : ExprForm → List Text
  | load x _ | cast x _ | term x => x.numbers
  | call c => c.numbers
  | param _ | alloc _ => []

/-- The numbers that are used with their own types. -/
def ownNumbers : ExprForm → List Text
  | load x type => if (type.getD []).isEmpty then x.numbers else []
  | form => form.numbers

/-- The types that are asked for. -/
def types : ExprForm → List Text
  | load _ type => type.toList
  | alloc type | cast _ type => [type]
  | call c => c.type.toList
  | param _ | term _ => []

end ExprForm

namespace StmtForm

def numbers : StmtForm → List Text
  | const _ _ x | print x | ret x => x.numbers
  | bind _ x => x.form.numbers
  | call c => c.numbers
  | exit x => x.toList.flatMap Term.numbers
  | globalVar _ _ | localVar _ _ | asm _ | free _ => []

/-- The numbers that are used with their own types.  A process ends with an integer whatever is
written there. -/
def ownNumbers : StmtForm → List Text
  | const _ type x => if (type.getD []).isEmpty then x.numbers else []
  | bind _ x => x.form.ownNumbers
  | exit _ => []
  | form => form.numbers

def types : StmtForm → List Text
  | const _ type _ => type.toList
  | globalVar _ type | localVar _ type => [type]
  | bind _ x => x.form.types
  | call c => c.type.toList
  | print _ | asm _ | free _ | ret _ | exit _ => []

end StmtForm

/-- A statement of whole numbers that asks for no floating type. -/
structure Stmt.IsWhole (s : Stmt) : Prop where
  numbers : ∀ t ∈ s.form.numbers, Numeral.IsWhole (unsigned t)
  types : ∀ type ∈ s.form.types, TypePolicy.isFloat type = false

def Item.stmts : Item → List Stmt
  | func f => f.body
  | stmt s => [s]

def Item.paramTypes : Item → List Text
  | func f => f.params.map (·.type)
  | stmt _ => []

/-- The statements of a script, those of its functions included. -/
def stmts (s : Script) : List Stmt := s.items.flatMap Item.stmts

/-- A script of whole numbers that asks for no floating type. -/
structure IsWhole (s : Script) : Prop where
  stmts : ∀ x ∈ s.stmts, x.IsWhole
  params : ∀ item ∈ s.items, ∀ type ∈ item.paramTypes, TypePolicy.isFloat type = false

/-! ## Literals -/

theorem literal_facts {t : Text} {v : Value} (h : Value.ofNumeral? t = some v) :
    v.kind = .number ∧ v.text = t ∧ v.isFloat = !(toInt64? t).isSome := by
  obtain ⟨n, -, -, rfl⟩ := ofNumeral?_eq_some_iff.mp h
  refine ⟨rfl, rfl, ?_⟩
  rw [Value.isFloat]
  cases (toInt64? t).isSome with
  | false => exact (by decide : TypePolicy.isFloat "float" = true)
  | true => exact (by decide : TypePolicy.isFloat "int64" = false)

theorem isFloat_getD {type : Option Text} (h : ∀ ty ∈ type.toList, TypePolicy.isFloat ty = false) :
    TypePolicy.isFloat (type.getD []) = false := by
  cases type with
  | none => exact isFloat_nil
  | some ty => exact h ty List.mem_cons_self

theorem isUnmarked_of_isWhole {t : Text} {v : Value} (h : Value.ofNumeral? t = some v)
    (hwhole : Numeral.IsWhole (unsigned t)) (type : Text) : (v.withType type).isUnmarked := by
  obtain ⟨hkind, htext, -⟩ := literal_facts h
  have hkind' : (v.withType type).kind = .number := hkind
  have htext' : (v.withType type).text = t := htext
  rw [Value.isUnmarked, if_pos hkind', htext', Bool.not_eq_true',
    hasAny_of_isWhole ".eE" (by decide) hwhole]

theorem isIntegral_ofText (u : Text) : (Value.ofText u).isIntegral := by
  rw [Value.isIntegral_of_kind (by simp [Value.ofText])]
  exact (by decide : (!TypePolicy.isFloat "str") = true)

/-! ## States of a run -/

namespace Emitter

/-- Nothing floating was emitted, and no name is bound to anything floating. -/
structure Integral (em : Emitter) : Prop where
  engine : em.engine.Integral
  globals : ∀ q ∈ em.globals, q.2.isIntegral
  names : ∀ s, em.scope = some s → ∀ q ∈ s.names, q.2.isIntegral

variable {em : Emitter} {name : Text} {v : Value}

theorem Integral.new {e : Engine} (h : e.Integral) : (Emitter.new e).Integral :=
  ⟨h, List.forall_mem_nil _, fun _ hs => by cases hs⟩

theorem Integral.withEngine (h : em.Integral) {e : Engine} (he : e.Integral) :
    Integral { em with engine := e } :=
  ⟨he, h.globals, h.names⟩

theorem isIntegral_of_mem_insert {b : Bindings} (hb : ∀ q ∈ b, q.2.isIntegral) (hv : v.isIntegral) :
    ∀ q ∈ b.insert name v, q.2.isIntegral := by
  intro q hq
  rcases List.mem_cons.mp hq with rfl | hq
  · exact hv
  · exact hb q (List.mem_filter.mp hq).1

theorem engine_bind (em : Emitter) (name : Text) (v : Value) :
    (em.bind name v).engine = em.engine := by
  rw [Emitter.bind]
  split <;> rfl

theorem Integral.bind (h : em.Integral) (hv : v.isIntegral) : (em.bind name v).Integral := by
  rw [Emitter.bind]
  split
  next s hs =>
    refine ⟨h.engine, h.globals, fun s' hs' => ?_⟩
    cases hs'
    exact isIntegral_of_mem_insert (h.names s hs) hv
  next hs => exact ⟨h.engine, isIntegral_of_mem_insert h.globals hv, h.names⟩

theorem Integral.unbind (h : em.Integral) : (em.unbind name).Integral := by
  have hglobals : ∀ q ∈ em.globals.erase name, q.2.isIntegral :=
    fun q hq => h.globals q (List.mem_filter.mp hq).1
  rw [Emitter.unbind]
  split
  next s hs =>
    split
    · refine ⟨h.engine, h.globals, fun s' hs' => ?_⟩
      cases hs'
      exact fun q hq => h.names s hs q (List.mem_filter.mp hq).1
    · exact ⟨h.engine, hglobals, h.names⟩
  next => exact ⟨h.engine, hglobals, h.names⟩

theorem Integral.lookup (h : em.Integral) (hv : em.lookup name = some v) : v.isIntegral := by
  rw [Emitter.lookup] at hv
  split at hv
  next w hw =>
    cases hv
    obtain ⟨s, hs, hget⟩ := Option.bind_eq_some_iff.mp hw
    exact h.names s hs (name, v) (Bindings.mem_of_get? hget)
  next => exact h.globals (name, v) (Bindings.mem_of_get? hv)

theorem isIntegral_of_bind (h : (em.bind name v).Integral) : v.isIntegral := by
  rw [Emitter.bind] at h
  split at h
  next s hs => exact h.names _ rfl (name, v) List.mem_cons_self
  next => exact h.globals (name, v) List.mem_cons_self

end Emitter

/-! ## Parts of a run -/

namespace Emission

variable {α β : Type}

/-- From integral states the part of a run comes to integral states, whether or not it succeeds, and
what it results in is so. -/
def StaysIntegral (m : Emission α) (p : α → Prop) : Prop :=
  ∀ em : Emitter, em.Integral → (m.outcome em).2.Integral ∧ ∀ a, (m.outcome em).1 = .ok a → p a

namespace StaysIntegral

variable {p : α → Prop} {q : β → Prop}

theorem pure {a : α} (h : p a) : (Pure.pure a : Emission α).StaysIntegral p :=
  fun _ hem => ⟨hem, fun _ hb => by cases hb; exact h⟩

theorem fail (pos : Pos) (f : ScriptFault) : (Emission.fail pos f : Emission α).StaysIntegral p :=
  fun _ hem => ⟨hem, fun _ hb => by cases hb⟩

theorem bind {m : Emission α} {f : α → Emission β} (hm : m.StaysIntegral p)
    (hf : ∀ a, p a → (f a).StaysIntegral q) : (m >>= f).StaysIntegral q := by
  intro em hem
  obtain ⟨hafter, hresult⟩ := hm em hem
  rw [outcome_bind]
  rcases hr : m.outcome em with ⟨x | a, em'⟩
  · rw [hr] at hafter
    exact ⟨hafter, fun _ hb => by cases hb⟩
  · rw [hr] at hafter hresult
    exact hf a (hresult a rfl) em' hafter

theorem get {f : Emitter → Emission β} (hf : ∀ em : Emitter, em.Integral → (f em).StaysIntegral q) :
    (MonadState.get >>= f).StaysIntegral q :=
  fun em hem => hf em hem em hem

theorem modifying {f : Emitter → Emitter} (h : ∀ em : Emitter, em.Integral → (f em).Integral) :
    (modify f : Emission Unit).StaysIntegral fun _ => True :=
  fun em hem => ⟨h em hem, fun _ _ => trivial⟩

theorem ite {c : Prop} [Decidable c] {m n : Emission α} (hm : c → m.StaysIntegral p)
    (hn : ¬ c → n.StaysIntegral p) : (if c then m else n).StaysIntegral p := by
  split
  next h => exact hm h
  next h => exact hn h

theorem engine {m : Emit α} (pos : Pos) (h : m.StaysIntegral p) :
    (Emission.engine pos m).StaysIntegral p := by
  intro em hem
  obtain ⟨hmoves, hanswer⟩ := h em.engine hem.engine
  refine ⟨hem.withEngine (hem.engine.makeAll hmoves), fun a ha => ?_⟩
  have hmap : ((m em.engine).1.mapError fun c => (⟨.engine c, pos, []⟩ : ScriptError)) = .ok a := ha
  cases hr : (m em.engine).1 with
  | ok b =>
    rw [hr] at hmap
    cases hmap
    exact hanswer a hr
  | error c =>
    rw [hr] at hmap
    cases hmap

theorem bindName (name : Text) {v : Value} (hv : v.isIntegral) :
    (Emission.bind name v).StaysIntegral fun _ => True :=
  modifying fun _ hem => hem.bind hv

theorem function (pos : Pos) (f : ScriptFault) :
    (Emission.function pos f).StaysIntegral fun _ => True := by
  refine get fun em _ => ?_
  split
  · exact pure trivial
  · exact fail pos f

theorem stringText (pos : Pos) (t : Text) :
    (Emission.stringText pos t).StaysIntegral fun _ => True := by
  refine ite (fun _ => ?_) fun _ => pure trivial
  split
  · exact pure trivial
  · exact fail _ _

/-! ### Terms and expressions -/

/-- What holds of the literals of a term and of all that is integral holds of its value. -/
theorem term_of {x : Term} {p : Value → Prop} (hother : ∀ v : Value, v.isIntegral → p v)
    (hnumber : ∀ t ∈ x.numbers, ∀ v, Value.ofNumeral? t = some v →
      (v.isFloat = true → p v) ∧
        (v.isFloat = false → ∀ target : Target, p (v.withType target.wordType))) :
    (Emission.term x).StaysIntegral p := by
  rw [Emission.term]
  cases hform : x.form with
  | string t => exact (stringText x.pos t).bind fun u _ => pure (hother _ (isIntegral_ofText u))
  | number t =>
    dsimp only
    cases hv : Value.ofNumeral? t with
    | none => exact fail _ _
    | some v =>
      obtain ⟨hfloat, hint⟩ := hnumber t (by simp [Term.numbers, hform]) v hv
      exact ite (fun h => pure (hfloat h)) fun h =>
        get fun em _ => pure (hint (Bool.eq_false_iff.mpr h) em.engine.target)
  | name n =>
    refine get fun em hem => ?_
    cases hlookup : em.lookup n with
    | none => exact fail _ _
    | some v => exact pure (hother v (hem.lookup hlookup))

theorem term_unmarked {x : Term} (h : ∀ t ∈ x.numbers, Numeral.IsWhole (unsigned t)) :
    (Emission.term x).StaysIntegral fun v => v.isUnmarked := by
  refine term_of (fun v hv => (Value.isIntegral_iff.mp hv).1) fun t ht v hv => ?_
  exact ⟨fun _ => isUnmarked_of_isWhole hv (h t ht) v.type,
    fun _ target => isUnmarked_of_isWhole hv (h t ht) _⟩

theorem term {x : Term} (h : ∀ t ∈ x.numbers, (toInt64? t).isSome) :
    (Emission.term x).StaysIntegral fun v => v.isIntegral := by
  refine term_of (fun v hv => hv) fun t ht v hv => ?_
  obtain ⟨-, -, hfloat⟩ := literal_facts hv
  rw [h t ht] at hfloat
  refine ⟨fun hc => ?_, fun _ target => Value.isIntegral_iff.mpr ⟨?_, target.isFloat_wordType⟩⟩
  · rw [hfloat] at hc
    cases hc
  · exact isUnmarked_of_isWhole hv (isSome_toInt64?_iff.mp (h t ht)).2.1 _

theorem terms {xs : List Term} (h : ∀ x ∈ xs, ∀ t ∈ x.numbers, (toInt64? t).isSome) :
    (xs.mapM Emission.term).StaysIntegral fun vs => ∀ v ∈ vs, v.isIntegral := by
  induction xs with
  | nil => exact pure (List.forall_mem_nil _)
  | cons x xs ih =>
    rw [List.mapM_cons]
    refine (term (h x List.mem_cons_self)).bind fun v hv => ?_
    refine (ih fun y hy => h y (List.mem_cons_of_mem x hy)).bind fun vs hvs => pure ?_
    exact List.forall_mem_cons.mpr ⟨hv, hvs⟩

theorem call (pos : Pos) {c : CallForm} (h : ∀ t ∈ c.numbers, (toInt64? t).isSome)
    (htypes : ∀ type ∈ c.type.toList, TypePolicy.isFloat type = false) :
    (Emission.call pos c).StaysIntegral fun v => v.isIntegral := by
  have hargs : ∀ x ∈ c.args, ∀ t ∈ x.numbers, (toInt64? t).isSome :=
    fun x hx t ht => h t (List.mem_flatMap.mpr ⟨x, hx, ht⟩)
  refine (terms hargs).bind fun args hargs => ?_
  cases hc : c.type with
  | none => exact engine pos (.call c.name hargs)
  | some type => exact engine pos (.callAs c.name hargs (htypes type (by simp [hc])))

theorem expr {x : Expr} (hwhole : ∀ t ∈ x.form.numbers, Numeral.IsWhole (unsigned t))
    (htypes : ∀ type ∈ x.form.types, TypePolicy.isFloat type = false)
    (hown : ∀ t ∈ x.form.ownNumbers, (toInt64? t).isSome) :
    (Emission.expr x).StaysIntegral fun v => v.isIntegral := by
  obtain ⟨pos, form⟩ := x
  rw [Emission.expr]
  cases form with
  | param name => exact (function pos _).bind fun f _ => engine pos (.param f name)
  | load value type =>
    have hasked := isFloat_getD htypes
    by_cases hempty : (type.getD []).isEmpty = true
    · have hnumbers : ∀ t ∈ value.numbers, (toInt64? t).isSome := by
        simpa [ExprForm.ownNumbers, hempty] using hown
      refine (term hnumbers).bind fun v hv =>
        engine pos (.loadValue (Value.isIntegral_iff.mp hv).1 ?_)
      rw [if_pos hempty]
      exact (Value.isIntegral_iff.mp hv).2
    · refine (term_unmarked hwhole).bind fun v hv => engine pos (.loadValue hv ?_)
      rwa [if_neg hempty]
  | alloc type => exact engine pos (.allocRegAs (htypes type List.mem_cons_self) true)
  | call c => exact call pos hown htypes
  | cast value type =>
    refine (term hown).bind fun v hv => engine pos (.cast ?_ (htypes type List.mem_cons_self))
    exact (Value.isIntegral_iff.mp hv).2
  | term value => exact term hown

/-! ### Statements -/

theorem code (pos : Pos) (t : Text) : (Emission.code pos t).StaysIntegral fun _ => True := by
  refine (stringText pos t).bind fun u _ => get fun em _ => ?_
  split
  · exact pure trivial
  · exact fail _ _

theorem exitCode (c : Option Term) : (Emission.exitCode c).StaysIntegral fun _ => True := by
  rw [Emission.exitCode.eq_def]
  split
  · exact pure trivial
  · split
    · split
      · exact pure trivial
      · exact fail _ _
    · exact fail _ _

theorem const (pos : Pos) (name : Text) (type : Option Text) {value : Term}
    (hwhole : ∀ t ∈ value.numbers, Numeral.IsWhole (unsigned t))
    (htypes : ∀ ty ∈ type.toList, TypePolicy.isFloat ty = false)
    (hown : (type.getD []).isEmpty → ∀ t ∈ value.numbers, (toInt64? t).isSome) :
    (Emission.term value >>= fun lit =>
      Emission.engine pos (Emit.declareConst name lit (type.getD []))).StaysIntegral
        fun v => v.isIntegral := by
  have hasked := isFloat_getD htypes
  by_cases hempty : (type.getD []).isEmpty = true
  · refine (term (hown hempty)).bind fun lit hlit =>
      engine pos (.declareConst name ?_ fun target => ?_)
    · exact (Value.isIntegral_iff.mp hlit).1
    · rw [Target.constantType, if_pos hempty, Emit.literalType, (Value.isIntegral_iff.mp hlit).2]
      split
      · decide
      · exact target.isFloat_wordType
  · refine (term_unmarked hwhole).bind fun lit hlit =>
      engine pos (.declareConst name hlit fun target => ?_)
    rwa [Target.constantType, if_neg hempty]

theorem stmt {s : Stmt} (h : s.IsWhole) (hown : ∀ t ∈ s.form.ownNumbers, (toInt64? t).isSome) :
    (Emission.stmt s).StaysIntegral fun _ => True := by
  obtain ⟨hwhole, htypes⟩ := h
  obtain ⟨pos, form⟩ := s
  rw [Emission.stmt]
  cases form with
  | const name type value =>
    have hconst := const pos name type hwhole htypes fun hempty => by
      simpa [StmtForm.ownNumbers, hempty] using hown
    show (Emission.term value >>= fun lit => Emission.engine pos
      (Emit.declareConst name lit (type.getD [])) >>= fun v => Emission.bind name v).StaysIntegral _
    rw [← bind_assoc]
    exact hconst.bind fun v hv => bindName name hv
  | globalVar name type =>
    refine (engine pos (.declareGlobal name (htypes type List.mem_cons_self))).bind fun v hv => ?_
    exact bindName name hv
  | localVar name type =>
    refine (function pos _).bind fun f _ => ?_
    refine (engine pos (.declareLocal f name (htypes type List.mem_cons_self))).bind fun v hv => ?_
    exact bindName name hv
  | bind name value => exact (expr hwhole htypes hown).bind fun v hv => bindName name hv
  | call c => exact (call pos hown htypes).bind fun r _ => engine pos (.release r)
  | print value =>
    exact (term hown).bind fun v hv => engine pos (.print (Value.isIntegral_iff.mp hv).2)
  | asm t => exact (code pos t).bind fun c _ => engine pos (.block c)
  | free name =>
    refine get fun em hem => ?_
    cases em.lookup name with
    | none => exact fail _ _
    | some v =>
      refine ite (fun _ => (engine pos (.release v)).bind fun _ _ => ?_) fun _ => fail _ _
      exact modifying fun _ h => h.unbind
  | ret value =>
    refine (function pos _).bind fun f _ => (term hown).bind fun v hv => ?_
    exact engine pos (.returnValue f (Value.isIntegral_iff.mp hv).2)
  | exit c => exact (exitCode c).bind fun n _ => engine pos (.exit n)

theorem forStmts {ss : List Stmt} (h : ∀ s ∈ ss, s.IsWhole)
    (hown : ∀ s ∈ ss, ∀ t ∈ s.form.ownNumbers, (toInt64? t).isSome) :
    (ss.forM Emission.stmt).StaysIntegral fun _ => True := by
  induction ss with
  | nil => exact pure trivial
  | cons s ss ih =>
    refine (stmt (h s List.mem_cons_self) (hown s List.mem_cons_self)).bind fun _ _ => ih ?_ ?_
    · exact fun x hx => h x (List.mem_cons_of_mem s hx)
    · exact fun x hx => hown x (List.mem_cons_of_mem s hx)

theorem inScope (f : FunctionRef) {body : Emission Unit} (h : body.StaysIntegral fun _ => True) :
    (Emission.inScope f body).StaysIntegral fun _ => True := by
  intro em hem
  have hin : Emitter.Integral { em with scope := some ⟨f, []⟩ } :=
    ⟨hem.engine, hem.globals, fun s hs => by cases hs; exact List.forall_mem_nil _⟩
  obtain ⟨hafter, -⟩ := h _ hin
  rw [outcome_inScope]
  exact ⟨⟨hafter.engine, hafter.globals, fun _ hs => by cases hs⟩, fun _ _ => trivial⟩

theorem item {x : Item} (h : ∀ s ∈ x.stmts, s.IsWhole)
    (hparams : ∀ type ∈ x.paramTypes, TypePolicy.isFloat type = false)
    (hown : ∀ s ∈ x.stmts, ∀ t ∈ s.form.ownNumbers, (toInt64? t).isSome) :
    (Emission.item x).StaysIntegral fun _ => True := by
  cases x with
  | func f =>
    have hsignature : ∀ p ∈ f.signature, TypePolicy.isFloat p.type = false := by
      intro p hp
      obtain ⟨formal, hformal, rfl⟩ := List.mem_map.mp hp
      exact hparams formal.type (List.mem_map.mpr ⟨formal, hformal, rfl⟩)
    refine (engine f.pos (.beginFunction f.name hsignature)).bind fun ref _ => inScope ref ?_
    exact (forStmts h hown).bind fun _ _ => engine f.pos (.endFunction ref)
  | stmt s => exact stmt (h s List.mem_cons_self) (hown s List.mem_cons_self)

theorem items {xs : List Item} (h : ∀ x ∈ xs, ∀ s ∈ x.stmts, s.IsWhole)
    (hparams : ∀ x ∈ xs, ∀ type ∈ x.paramTypes, TypePolicy.isFloat type = false)
    (hown : ∀ x ∈ xs, ∀ s ∈ x.stmts, ∀ t ∈ s.form.ownNumbers, (toInt64? t).isSome) :
    (xs.forM Emission.item).StaysIntegral fun _ => True := by
  induction xs with
  | nil => exact pure trivial
  | cons x xs ih =>
    refine (item (h x List.mem_cons_self) (hparams x List.mem_cons_self)
      (hown x List.mem_cons_self)).bind fun _ _ => ih ?_ ?_ ?_
    · exact fun y hy => h y (List.mem_cons_of_mem x hy)
    · exact fun y hy => hparams y (List.mem_cons_of_mem x hy)
    · exact fun y hy => hown y (List.mem_cons_of_mem x hy)

end StaysIntegral

end Emission

/-- A script of whole numbers without floating types emits nothing floating if its numbers are typed
as integers where their own types count, also if it fails on the way. -/
theorem emit_integral {s : Script} (h : s.IsWhole)
    (hown : ∀ x ∈ s.stmts, ∀ t ∈ x.form.ownNumbers, (toInt64? t).isSome) {e : Engine}
    (he : e.Integral) : (s.emit e).2.Integral := by
  have hmem : ∀ x ∈ s.items, ∀ y ∈ x.stmts, y ∈ s.stmts :=
    fun x hx y hy => List.mem_flatMap.mpr ⟨x, hx, hy⟩
  have hitems : (s.items.forM Emission.item).StaysIntegral fun _ => True :=
    .items (fun x hx y hy => h.stmts y (hmem x hx y hy)) h.params
      fun x hx y hy => hown y (hmem x hx y hy)
  exact (hitems _ (.new he)).1.engine

/-! ## Numbers that are typed as floating -/

namespace Emission

variable {em em' : Emitter} {t : Text}

/-- The value of a number that is no machine integer is a floating literal. -/
theorem term_floating {x : Term} {v : Value} (ht : t ∈ x.numbers)
    (hno : (toInt64? t).isSome = false) (h : (term x).Yields em v em') :
    v.kind = .number ∧ v.isFloat = true := by
  obtain ⟨pos, form⟩ := x
  cases form with
  | string | name => cases ht
  | number u =>
    obtain rfl : t = u := List.mem_singleton.mp ht
    rw [term] at h
    dsimp only at h
    split at h
    case h_1 => exact (yields_fail.mp h).elim
    case h_2 w hw =>
      obtain ⟨hkind, -, hfloat⟩ := literal_facts hw
      rw [hno, Bool.not_false] at hfloat
      rw [if_pos hfloat] at h
      obtain ⟨rfl, -⟩ := yields_pure.mp h
      exact ⟨hkind, hfloat⟩

theorem terms_floating {xs : List Term} {vs : List Value} (ht : t ∈ xs.flatMap Term.numbers)
    (hno : (toInt64? t).isSome = false) (h : (xs.mapM term).Yields em vs em') :
    ∃ v ∈ vs, v.kind = .number ∧ v.isFloat = true := by
  induction xs generalizing vs em em' with
  | nil => cases ht
  | cons x xs ih =>
    rw [List.mapM_cons] at h
    obtain ⟨v, em₁, hx, hrest⟩ := yields_bind.mp h
    obtain ⟨ws, em₂, hxs, hpure⟩ := yields_bind.mp hrest
    obtain ⟨rfl, -⟩ := yields_pure.mp hpure
    rw [List.flatMap_cons] at ht
    rcases List.mem_append.mp ht with ht | ht
    · exact ⟨v, List.mem_cons_self, term_floating ht hno hx⟩
    · obtain ⟨w, hw, hfloat⟩ := ih ht hxs
      exact ⟨w, List.mem_cons_of_mem v hw, hfloat⟩

theorem call_floating {pos : Pos} {c : CallForm} {v : Value} (ht : t ∈ c.numbers)
    (hno : (toInt64? t).isSome = false) (h : (call pos c).Yields em v em') :
    ∃ ms, Emit.StoresFloat ms ∧ em'.engine = em.engine.makeAll ms := by
  obtain ⟨args, em₁, hargs, hcall⟩ := yields_bind.mp h
  obtain ⟨w, hmem, hkind, hfloat⟩ := terms_floating ht hno hargs
  rw [terms_yield hargs] at hcall
  split at hcall
  · obtain ⟨ms, hms, rfl⟩ := yields_engine.mp hcall
    rw [Emit.call, Emit.grants_read_bind] at hms
    exact ⟨ms, Emit.callAs_storesFloat hmem hkind hfloat hms, rfl⟩
  · obtain ⟨ms, hms, rfl⟩ := yields_engine.mp hcall
    exact ⟨ms, Emit.callAs_storesFloat hmem hkind hfloat hms, rfl⟩

/-- An expression with such a number stores a floating constant, or is the number. -/
theorem expr_floating {x : Expr} {v : Value} (ht : t ∈ x.form.ownNumbers)
    (hno : (toInt64? t).isSome = false) (h : (expr x).Yields em v em') :
    (∃ ms, Emit.StoresFloat ms ∧ em'.engine = em.engine.makeAll ms) ∨ v.isFloat = true := by
  obtain ⟨pos, form⟩ := x
  rw [expr] at h
  cases form with
  | param | alloc => cases ht
  | load value type =>
    obtain ⟨w, em₁, hw, hload⟩ := yields_bind.mp h
    simp only [ExprForm.ownNumbers] at ht
    split at ht
    next hempty =>
      obtain ⟨hkind, hfloat⟩ := term_floating ht hno hw
      rw [(term_yields hw).1, List.isEmpty_iff.mp hempty] at hload
      obtain ⟨ms, hms, rfl⟩ := yields_engine.mp hload
      exact .inl ⟨ms, Emit.loadValue_storesFloat hkind hfloat hms, rfl⟩
    next => cases ht
  | call c => exact .inl (call_floating ht hno h)
  | cast value type =>
    obtain ⟨w, em₁, hw, hcast⟩ := yields_bind.mp h
    obtain ⟨hkind, hfloat⟩ := term_floating ht hno hw
    rw [(term_yields hw).1] at hcast
    obtain ⟨ms, hms, rfl⟩ := yields_engine.mp hcast
    exact .inl ⟨ms, Emit.cast_storesFloat hkind hfloat hms, rfl⟩
  | term value => exact .inr (term_floating ht hno h).2

/-- A statement that uses such a number with its own type leaves something floating behind. -/
theorem stmt_floating {s : Stmt} (ht : t ∈ s.form.ownNumbers) (hno : (toInt64? t).isSome = false)
    (h : (stmt s).Yields em () em') : ¬ em'.Integral := by
  obtain ⟨pos, form⟩ := s
  rw [stmt] at h
  cases form with
  | globalVar | localVar | asm | free | exit => cases ht
  | const name type value =>
    obtain ⟨lit, em₁, hlit, hrest⟩ := yields_bind.mp h
    obtain ⟨v, em₂, hv, hbind⟩ := yields_bind.mp hrest
    simp only [StmtForm.ownNumbers] at ht
    split at ht
    next hempty =>
      obtain ⟨hkind, hfloat⟩ := term_floating ht hno hlit
      rw [List.isEmpty_iff.mp hempty] at hv
      obtain ⟨ms, hms, rfl⟩ := yields_engine.mp hv
      rw [yields_modify.mp hbind]
      intro hint
      have hengine := hint.engine
      rw [Emitter.engine_bind] at hengine
      exact Emit.not_integral_declareConst hkind hfloat hms hengine
    next => cases ht
  | bind name value =>
    obtain ⟨v, em₁, hv, hbind⟩ := yields_bind.mp h
    rw [yields_modify.mp hbind]
    intro hint
    rcases expr_floating ht hno hv with ⟨ms, hms, hengine⟩ | hfloat
    · have hafter := hint.engine
      rw [Emitter.engine_bind, hengine] at hafter
      exact hms.not_integral hafter
    · rw [(Value.isIntegral_iff.mp (Emitter.isIntegral_of_bind hint)).2] at hfloat
      cases hfloat
  | call c =>
    obtain ⟨r, em₁, hr, hrelease⟩ := yields_bind.mp h
    obtain ⟨ms, hms, hengine⟩ := call_floating ht hno hr
    obtain ⟨ns, -, rfl⟩ := yields_engine.mp hrelease
    intro hint
    have hafter := hint.engine
    rw [hengine, ← Engine.makeAll_append] at hafter
    exact (hms.mono (List.subset_append_left _ _)).not_integral hafter
  | print value =>
    obtain ⟨v, em₁, hv, hprint⟩ := yields_bind.mp h
    obtain ⟨hkind, hfloat⟩ := term_floating ht hno hv
    obtain ⟨ms, hms, rfl⟩ := yields_engine.mp hprint
    exact fun hint => (Emit.print_storesFloat hkind hfloat hms).not_integral hint.engine
  | ret value =>
    obtain ⟨f, em₁, -, hrest⟩ := yields_bind.mp h
    obtain ⟨v, em₂, hv, hret⟩ := yields_bind.mp hrest
    obtain ⟨hkind, hfloat⟩ := term_floating ht hno hv
    obtain ⟨ms, hms, rfl⟩ := yields_engine.mp hret
    exact fun hint => (Emit.returnValue_storesFloat hkind hfloat hms).not_integral hint.engine

end Emission

/-! ## The types and the code of number literals -/

theorem ExprForm.ownNumbers_subset (form : ExprForm) : form.ownNumbers ⊆ form.numbers := by
  cases form with
  | load x type =>
    rw [ownNumbers]
    split
    · exact List.Subset.refl _
    · exact List.nil_subset _
  | _ => exact List.Subset.refl _

theorem StmtForm.ownNumbers_subset (form : StmtForm) : form.ownNumbers ⊆ form.numbers := by
  cases form with
  | const name type x =>
    rw [ownNumbers]
    split
    · exact List.Subset.refl _
    · exact List.nil_subset _
  | bind name x => exact x.form.ownNumbers_subset
  | exit x => exact List.nil_subset _
  | _ => exact List.Subset.refl _

/-- Of the whole numbers, the machine integers are those that are typed as integers. -/
theorem isMachineInteger_iff {t : Text} (h : Numeral.IsWhole (unsigned t)) :
    IsMachineInteger t ↔ (toInt64? t).isSome := by
  rw [isSome_toInt64?_iff_spelling, and_iff_right (hasAny_of_isWhole ".eEpP" (by decide) h)]

theorem Stmt.IsWhole.ownNumbers_iff {s : Stmt} (h : s.IsWhole) :
    (∀ t ∈ s.form.ownNumbers, IsMachineInteger t) ↔
      ∀ t ∈ s.form.ownNumbers, (toInt64? t).isSome := by
  refine forall₂_congr fun t ht => isMachineInteger_iff (h.numbers t ?_)
  exact s.form.ownNumbers_subset ht

/-- A literal keeps its text, and has the type that its spelling suggests unless it is spelled as an
integer and is no machine integer, when it is floating.  So of the statements of a script of whole
numbers that asks for no floating type, one emits nothing floating if, and only if, the numbers that
it uses with their own types are machine integers; and if all of them are, the script emits nothing
floating. -/
theorem number_literal_paths {t : Text} {v : Value} (h : Value.ofNumeral? t = some v) {s : Script}
    (hs : s.IsWhole) :
    (v.kind = .number ∧ v.text = t ∧
      (v.type = spelledType t ↔ hasAny ".eEpP" t ∨ IsMachineInteger t) ∧
      (v.type ≠ spelledType t → v.type = ofString "float")) ∧
    (∀ x ∈ s.stmts, ∀ em em' : Emitter, em.Integral → (Emission.stmt x).Yields em () em' →
      (em'.Integral ↔ ∀ u ∈ x.form.ownNumbers, IsMachineInteger u)) ∧
    (∀ e : Engine, e.Integral → (∀ x ∈ s.stmts, ∀ u ∈ x.form.ownNumbers, IsMachineInteger u) →
      (s.emit e).2.Integral) := by
  refine ⟨?_, fun x hx em em' hem hrun => ?_, fun e he hown => ?_⟩
  · obtain ⟨hkind, htext, -⟩ := literal_facts h
    exact ⟨hkind, htext, type_eq_spelledType_iff h⟩
  · rw [(hs.stmts x hx).ownNumbers_iff]
    constructor
    · intro hint u hu
      by_contra hno
      exact Emission.stmt_floating hu (Bool.eq_false_iff.mpr hno) hrun hint
    · intro hown
      have hafter := (Emission.StaysIntegral.stmt (hs.stmts x hx) hown em hem).1
      rwa [hrun] at hafter
  · exact emit_integral hs (fun x hx => (hs.stmts x hx).ownNumbers_iff.mp (hown x hx)) he

/-- A script that prints a number. -/
def printScript (t : Text) : Script := ⟨.start, none, [.stmt ⟨.start, .print ⟨.start, .number t⟩⟩], []⟩

/-- The least integer beyond a word is floating, and it is printed as a floating number. -/
theorem number_literal_paths_sample :
    let t := ofString "9223372036854775808"
    let em := Emitter.new (.new .bits64 true)
    Value.ofNumeral? t = some (numberLiteral t "float") ∧ spelledType t = ofString "int64" ∧
    (printScript t).IsWhole ∧ em.Integral ∧ ¬ IsMachineInteger t ∧
    ∃ x ∈ (printScript t).stmts, ∃ em', (Emission.stmt x).Yields em () em' ∧ ¬ em'.Integral := by
  have hliteral : Value.ofNumeral? "9223372036854775808" =
      some (numberLiteral "9223372036854775808" "float") := by decide +kernel
  have hnumber : Numeral.IsWhole (unsigned (ofString "9223372036854775808")) := by decide
  have hs : (printScript "9223372036854775808").IsWhole := by
    refine ⟨fun x hx => ?_, ?_⟩
    · obtain rfl := List.mem_singleton.mp hx
      exact ⟨fun t ht => List.mem_singleton.mp ht ▸ hnumber, List.forall_mem_nil _⟩
    · exact List.forall_mem_singleton.mpr (List.forall_mem_nil _)
  have hnew : (Emitter.new (.new .bits64 true)).Integral := .new (Engine.integral_new _ _)
  have hno : ¬ IsMachineInteger "9223372036854775808" := by
    rw [isMachineInteger_iff hnumber]
    decide
  refine ⟨hliteral, by decide, hs, hnew, hno, _, List.mem_singleton.mpr rfl, ?_⟩
  have hok : ((Emission.stmt ⟨.start, .print ⟨.start, .number "9223372036854775808"⟩⟩).outcome
      (Emitter.new (.new .bits64 true))).1.isOk = true := by decide +kernel
  rcases hr : (Emission.stmt ⟨.start, .print ⟨.start, .number "9223372036854775808"⟩⟩).outcome
    (Emitter.new (.new .bits64 true)) with ⟨x | u, em'⟩
  · rw [hr] at hok
    cases hok
  · refine ⟨em', hr, fun hint => hno ?_⟩
    obtain ⟨-, hstmt, -⟩ := number_literal_paths hliteral hs
    exact (hstmt _ (List.mem_singleton.mpr rfl) _ _ hnew hr).mp hint _ List.mem_cons_self

end Assembly.Script
