import Assembly.Proofs.Engine.Confined
import Assembly.Proofs.Engine.Mode
import Assembly.Proofs.Engine.Refusal

/-!
# What a permissive engine refuses

A permissive engine warns where a strict one refuses: at unknown types, at names that are
taken, and when the registers of a class are used up.  An operation that can be refused for
no other reason is lenient, and a permissive engine always grants it.  Operations built from
lenient ones are lenient.

The others look at their arguments, or at the function they are about, before they do
anything.  `permissive_refuses_iff` says of each operation when it is refused and why.
-/

namespace Assembly

namespace Engine

structure Permissive (e : Engine) : Prop where
  rules : e.strict = false
  file : e.regs.strict = false

variable {e : Engine}

theorem Permissive.makeAll (he : e.Permissive) (ms : List Move) : (e.makeAll ms).Permissive :=
  ⟨(e.makeAll_strict ms).trans he.rules, (e.makeAll_regs_strict ms).trans he.file⟩

theorem Permissive.serveAll (he : e.Permissive) (qs : List Request) : (e.serveAll qs).Permissive := by
  induction qs generalizing e with
  | nil => exact he
  | cons q qs ih => exact ih (he.makeAll (e.movesOf q))

end Engine

namespace Emit

variable {α β : Type} {e : Engine} {x : EmitError} {name type : Text} {v : Value}

/-! ## Lenient operations -/

/-- No permissive engine refuses the operation. -/
def Lenient (m : Emit α) : Prop := ∀ e, e.Permissive → ∀ x ms, ¬ m.Refuses e x ms

namespace Lenient

theorem of_total {m : Emit α} (h : m.Total) : m.Lenient := fun e _ => h e

theorem bind {m : Emit α} {f : α → Emit β} (hm : m.Lenient) (hf : ∀ a, (f a).Lenient) :
    (m >>= f).Lenient := by
  intro e he x ms h
  rcases refuses_bind.mp h with h | ⟨a, ms₁, -, ms₂, h, -⟩
  · exact hm e he x ms h
  · exact hf a _ (he.makeAll ms₁) x ms₂ h

theorem reading {f : Engine → Emit β} (hf : ∀ e, e.Permissive → (f e).Lenient) :
    (read >>= f).Lenient :=
  fun e he x ms h => hf e he e he x ms (refuses_read_bind.mp h)

theorem ite {c : Prop} [Decidable c] {m n : Emit α} (hm : m.Lenient) (hn : n.Lenient) :
    (if c then m else n).Lenient := by
  split
  · exact hm
  · exact hn

theorem rewording {m : Emit α} (hm : m.Lenient) (words : EmitError → EmitError) :
    (m.rewording words).Lenient := by
  intro e he x ms h
  obtain ⟨y, hy, -⟩ := refuses_rewording.mp h
  exact hm e he y ms hy

theorem moves (ms : List Move) : (Emit.moves ms).Lenient := of_total (.moves ms)

theorem instrs (is : List Instr) : (Emit.instrs is).Lenient := moves _

theorem pure (a : α) : (Pure.pure a : Emit α).Lenient := of_total (.pure a)

/-! ## Policy and registers -/

theorem checkType (type : Text) : (Emit.checkType type).Lenient := by
  intro e he x ms h
  obtain ⟨-, hs, -⟩ := checkType_refused.mp h
  exact Bool.false_ne_true (he.rules.symm.trans hs)

theorem claimSymbol (name : Text) : (Emit.claimSymbol name).Lenient := by
  intro e he x ms h
  obtain ⟨-, hs, -⟩ := claimSymbol_refused.mp h
  exact Bool.false_ne_true (he.rules.symm.trans hs)

theorem allocRegAs (type : Text) (temp : Bool) : (Emit.allocRegAs type temp).Lenient :=
  fun _ he _ _ h => Bool.false_ne_true (he.file.symm.trans (allocRegAs_refused h).1)

theorem allocReg (type : Text) : (Emit.allocReg type).Lenient := allocRegAs type true

theorem withTemp (type : Text) {body : Value → Emit α} (hbody : ∀ r, (body r).Total) :
    (Emit.withTemp type body).Lenient :=
  fun _ he _ _ h => Bool.false_ne_true (he.file.symm.trans (withTemp_refused hbody h).1)

theorem materialize (v : Value) (type : Text) : (Emit.materialize v type).Lenient :=
  of_total (total_materialize v type)

theorem declareGlobal (name type : Text) : (Emit.declareGlobal name type).Lenient :=
  (checkType type).bind fun _ => (claimSymbol name).bind fun _ => reading fun _ _ =>
    (moves _).bind fun _ => pure _

/-! ## Calls -/

theorem pushThroughTemp (v : Value) (type : Text) : (Emit.pushThroughTemp v type).Lenient :=
  reading fun _ _ => withTemp _ fun _ => .instrs _

theorem pushLabel (label : Text) : (Emit.pushLabel label).Lenient :=
  reading fun _ _ => withTemp _ fun _ => .instrs _

theorem pushArg (arg : Value) : (Emit.pushArg arg).Lenient := by
  refine reading fun e _ => ite (instrs _) (ite (instrs _) (ite ?_ ?_))
  · exact (of_total (total_stringLabel arg.text)).bind fun label => pushLabel label
  · exact (materialize arg _).bind fun arg => pushThroughTemp arg _

theorem pushArgs (callee : Text) (index : Nat) (args : List Value) :
    (Emit.pushArgs callee index args).Lenient := by
  induction args generalizing index with
  | nil => exact pure ()
  | cons arg rest ih => exact (ih (index + 1)).bind fun _ => (pushArg arg).rewording _

theorem callAs (name : Text) (args : List Value) (type : Text) :
    (Emit.callAs name args type).Lenient :=
  reading fun _ _ => (pushArgs name 0 args).bind fun _ => (instrs _).bind fun _ =>
    (allocReg type).bind fun _ => (moves _).bind fun _ => pure _

theorem call (name : Text) (args : List Value) : (Emit.call name args).Lenient :=
  reading fun _ _ => callAs name args _

/-! ## Casts -/

theorem intToInt (v : Value) (type : Text) : (Emit.intToInt v type).Lenient :=
  reading fun _ _ => (allocReg type).bind fun r => (moves _).bind fun _ => pure r

theorem intToFloat (v : Value) (type : Text) : (Emit.intToFloat v type).Lenient := by
  refine reading fun _ _ => (allocReg type).bind fun r => ite ?_ ?_
  · exact (instrs _).bind fun _ => pure r
  · exact (withTemp _ fun _ => .instrs _).bind fun _ => pure r

theorem floatToInt (v : Value) (type : Text) : (Emit.floatToInt v type).Lenient := by
  refine reading fun _ _ => (allocReg type).bind fun r => ite ?_ ?_
  · exact (moves _).bind fun _ => pure r
  · refine (materialize v _).bind fun w => ?_
    exact (withTemp _ fun _ => .instrs _).bind fun _ => pure r

theorem floatToFloat (v : Value) (type : Text) : (Emit.floatToFloat v type).Lenient :=
  reading fun _ _ => (allocReg type).bind fun r => (materialize v _).bind fun _ =>
    (moves _).bind fun _ => pure r

/-! ## Printing -/

theorem printFloat (v : Value) : (Emit.printFloat v).Lenient := by
  refine (of_total total_needPrintFloat).bind fun _ => reading fun _ _ => ?_
  refine (materialize v _).bind fun w => ite ((instrs _).bind fun _ => instrs _) ?_
  exact (withTemp _ fun _ => .instrs _).bind fun _ => instrs _

theorem printInt (v : Value) : (Emit.printInt v).Lenient := by
  refine (of_total total_needPrintInt).bind fun _ => reading fun _ _ => ite ?_ ?_
  · exact (instrs _).bind fun _ => instrs _
  · exact (pushThroughTemp v _).bind fun _ => instrs _

theorem print (v : Value) : (Emit.print v).Lenient :=
  ite (of_total (total_printString v.text)) (ite (printFloat v) (printInt v))

/-! ## Functions -/

theorem claimFunction (name : Text) (params : List Param) :
    (Emit.claimFunction name params).Lenient := by
  refine (claimSymbol name).bind fun _ => ?_
  induction params with
  | nil => exact pure ()
  | cons p params ih => exact ((checkType p.type).rewording _).bind fun _ => ih

theorem addLocal (g : Frame) (name type : Text) : (Emit.addLocal g name type).Lenient := by
  refine reading fun e he => ?_
  rw [if_neg (by simp [he.rules])]
  exact (moves _).bind fun _ => pure _

end Lenient

/-! ## Refusals -/

/-- The operation is refused for this reason. -/
def Fails (m : Emit α) (e : Engine) (x : EmitError) : Prop := (m e).1 = .error x

theorem fails_iff {m : Emit α} : m.Fails e x ↔ ∃ ms, m.Refuses e x ms :=
  ⟨fun h => ⟨(m e).2, Prod.ext h rfl⟩, fun ⟨_, h⟩ => congrArg Prod.fst h⟩

theorem Lenient.not_fails {m : Emit α} (hm : m.Lenient) (he : e.Permissive) : ¬ m.Fails e x := by
  rw [fails_iff]
  rintro ⟨ms, h⟩
  exact hm e he x ms h

theorem Lenient.answers {m : Emit α} (hm : m.Lenient) (he : e.Permissive) : ∃ a, (m e).1 = .ok a := by
  cases h : (m e).1 with
  | ok a => exact ⟨a, rfl⟩
  | error x => exact absurd h (hm.not_fails he)

theorem fails_throw {y : EmitError} : (throw y : Emit α).Fails e x ↔ x = y := by
  simp [fails_iff]

/-- An operation that looks at its arguments first, and is lenient if they are right. -/
theorem fails_check_iff {c : Prop} [Decidable c] {y : EmitError} {m : Emit α} (hm : m.Lenient)
    (he : e.Permissive) : (if c then throw y else m : Emit α).Fails e x ↔ c ∧ x = y := by
  split
  case isTrue hc =>
    rw [fails_throw]
    exact ⟨fun hx => ⟨hc, hx⟩, And.right⟩
  case isFalse hc => exact iff_of_false (hm.not_fails he) fun h => hc h.1

theorem declareConst_fails_iff {lit : Value} (he : e.Permissive) :
    (declareConst name lit type).Fails e x ↔
      lit.kind ≠ .number ∧ lit.kind ≠ .string ∧ x = .notLiteral name lit.kind := by
  have hstore : ∀ type', (do
      checkType type'
      claimSymbol name
      move (.store ⟨name, e.target.directive type', literalContent lit type'⟩)
      return .ofConstant name type' : Emit Value).Lenient := fun type' =>
    (Lenient.checkType type').bind fun _ => (Lenient.claimSymbol name).bind fun _ =>
      (Lenient.moves _).bind fun _ => .pure _
  rw [← and_assoc, declareConst]
  by_cases hkind : lit.kind ≠ .number ∧ lit.kind ≠ .string
  · rw [if_pos hkind, fails_iff]
    constructor
    · rintro ⟨ms, h⟩
      rcases refuses_bind.mp h with h | ⟨_, _, h, -⟩
      · exact ⟨hkind, (refuses_throw.mp h).1⟩
      · exact (grants_throw.mp h).elim
    · rintro ⟨-, rfl⟩
      exact ⟨[], refuses_bind.mpr (.inl (refuses_throw.mpr ⟨rfl, rfl⟩))⟩
  · rw [if_neg hkind, fails_iff]
    refine iff_of_false ?_ fun h => hkind h.1
    rintro ⟨ms, h⟩
    exact hstore _ e he x ms (refuses_read_bind.mp h)

theorem loadValue_fails_iff (he : e.Permissive) :
    (loadValue v type).Fails e x ↔ v.kind = .string ∧ x = .loadString := by
  rw [loadValue]
  by_cases hreg : v.isRegister = true
  · rw [if_pos hreg]
    refine iff_of_false ((Lenient.pure v).not_fails he) fun h => ?_
    rw [Value.isRegister, h.1] at hreg
    cases hreg
  · rw [if_neg hreg]
    refine fails_check_iff (.reading fun e _ => ?_) he
    exact (Lenient.materialize v _).bind fun w => (Lenient.allocReg _).bind fun r =>
      (Lenient.moves _).bind fun _ => .pure r

theorem cast_fails_iff (he : e.Permissive) : (cast v type).Fails e x ↔
    (v.kind = .string ∨ v.kind = .empty) ∧ x = .castOperand v.kind := by
  refine fails_check_iff ((Lenient.checkType type).bind fun _ => .reading fun e _ => ?_) he
  dsimp only
  split
  · exact .intToInt _ type
  · exact .intToFloat _ type
  · exact .floatToInt _ type
  · exact .floatToFloat _ type

/-! ## Requests about functions -/

theorem beginFunction_fails_iff {params : List Param} (he : e.Permissive) :
    (beginFunction name params).Fails e x ↔
      ∃ g, e.current = some g ∧ x = .functionOpen name g.name := by
  rw [Fails, beginFunction_run]
  cases e.current with
  | some g => simp [eq_comm]
  | none =>
    have hbegin : (claimFunction name params >>= fun _ => enterFunction name params).Lenient :=
      (Lenient.claimFunction name params).bind fun _ => .reading fun _ _ =>
        (Lenient.moves _).bind fun _ => .pure _
    exact iff_of_false (hbegin.not_fails he) fun h => by simp at h

/-- What is asked of a function is refused if it is not the open one.  Otherwise it depends on what
is asked. -/
theorem fails_openFrame_bind {f : FunctionRef} {k : Frame → Emit α} :
    (openFrame f >>= k).Fails e x ↔ ¬ Opens f e ∧ x = .functionEnded f.name ∨
      ∃ g, e.current = some g ∧ g.id = f.id ∧ (k g).Fails e x := by
  rw [Fails, bind_apply, openFrame_run, Opens]
  cases e.current with
  | none => simp [eq_comm]
  | some g =>
    by_cases hid : g.id = f.id
    · simp [hid, Fails]
    · simp only [hid, if_false, Option.map_some, Option.some.injEq, not_false_eq_true, true_and,
        Except.error.injEq]
      rw [eq_comm]
      refine (or_iff_left ?_).symm
      rintro ⟨_, rfl, hsame, -⟩
      exact hid hsame

theorem fails_openFrame_bind_lenient {f : FunctionRef} {k : Frame → Emit α}
    (hk : ∀ g, (k g).Lenient) (he : e.Permissive) :
    (openFrame f >>= k).Fails e x ↔ ¬ Opens f e ∧ x = .functionEnded f.name := by
  rw [fails_openFrame_bind]
  refine or_iff_left ?_
  rintro ⟨g, -, -, hg⟩
  exact (hk g).not_fails he hg

theorem declareLocal_fails_iff {f : FunctionRef} (he : e.Permissive) :
    (declareLocal f name type).Fails e x ↔ ¬ Opens f e ∧ x = .functionEnded f.name :=
  fails_openFrame_bind_lenient (fun g => (Lenient.checkType type).bind fun _ =>
    Lenient.addLocal g name type) he

theorem endFunction_fails_iff {f : FunctionRef} (he : e.Permissive) :
    (endFunction f).Fails e x ↔ ¬ Opens f e ∧ x = .functionEnded f.name :=
  fails_openFrame_bind_lenient (fun _ => (Lenient.moves _).bind fun _ => .moves _) he

theorem find_param_eq_none_iff {g : Frame} :
    g.params.zipIdx.find? (·.1.name = name) = none ↔ ∀ p ∈ g.params, p.name ≠ name := by
  rw [List.find?_eq_none]
  constructor
  · intro h p hp
    obtain ⟨i, hi⟩ := List.mem_iff_getElem?.mp hp
    simpa using h (p, i) (List.mem_zipIdx_iff_getElem?.mpr hi)
  · intro h p hp
    simpa using h p.1 (List.mem_of_getElem? (List.mem_zipIdx_iff_getElem?.mp hp))

/-- A parameter that was fetched before is there; otherwise the function must have it. -/
theorem param_fails_iff {f : FunctionRef} (he : e.Permissive) : (param f name).Fails e x ↔
    ¬ Opens f e ∧ x = .functionEnded f.name ∨
      ∃ g, e.current = some g ∧ g.id = f.id ∧ g.cached.get? name = none ∧
        (∀ p ∈ g.params, p.name ≠ name) ∧ x = .unknownParam name g.name := by
  rw [param, fails_openFrame_bind]
  refine or_congr_right (exists_congr fun g => and_congr_right' (and_congr_right' ?_))
  rw [← find_param_eq_none_iff]
  cases g.cached.get? name with
  | some r => exact iff_of_false ((Lenient.pure r).not_fails he) fun h => by cases h.1
  | none =>
    cases g.params.zipIdx.find? (·.1.name = name) with
    | none => simp [fails_throw]
    | some pi =>
      refine iff_of_false (Lenient.not_fails (.reading fun _ _ => ?_) he) fun h => by cases h.2.1
      exact (Lenient.allocRegAs _ false).bind fun r => (Lenient.moves _).bind fun _ =>
        (Lenient.moves _).bind fun _ => .pure r

theorem returnValue_fails_iff {f : FunctionRef} (he : e.Permissive) :
    (returnValue f v).Fails e x ↔ ¬ Opens f e ∧ x = .functionEnded f.name ∨
      ∃ g, e.current = some g ∧ g.id = f.id ∧ v.kind = .string ∧ v.isFloat = false ∧
        x = .returnString g.name := by
  rw [returnValue, fails_openFrame_bind]
  refine or_congr_right (exists_congr fun g => and_congr_right' (and_congr_right' ?_))
  rw [fails_iff]
  simp only [refuses_read_bind]
  rw [← fails_iff]
  cases hfloat : v.isFloat with
  | true =>
    rw [if_pos rfl]
    have hreturn := (Lenient.materialize v v.type).bind fun w =>
      Lenient.moves [.instr (e.target.floatReturn w)]
    exact iff_of_false (hreturn.not_fails he) fun h => by cases h.2.1
  | false =>
    rw [if_neg Bool.false_ne_true]
    have hreturn : (instr (e.target.intReturn v)).Lenient := .moves _
    rw [fails_check_iff hreturn he]
    simp

end Emit

/-! ## In a run -/

open Emit

namespace Engine

theorem reply_error_iff {e : Engine} {x : EmitError} {α : Type} {k : α → Reply} {m : Emit α} :
    ((k <$> m) e).1 = .error x ↔ m.Fails e x := by
  show (k <$> m).Fails e x ↔ _
  rw [fails_iff, fails_iff]
  exact exists_congr fun _ => refuses_map

theorem reply_of_lenient {e : Engine} {α : Type} (k : α → Reply) {m : Emit α} (hm : m.Lenient)
    (he : e.Permissive) : ∃ a, ((k <$> m) e).1 = .ok (k a) := by
  obtain ⟨a, ha⟩ := hm.answers he
  refine ⟨a, ?_⟩
  rw [map_apply, ha]
  rfl

/-- After every run, refused requests included, a permissive engine grants every global, register,
call and print.  It refuses a constant that is no literal, a string that should go to a register
or be cast, a value of no kind that should be cast, and a function inside of another.  What is
asked of a function is refused if the function is not the open one; a parameter also if the
function has neither fetched it nor has it, and a return also of a string that is of no floating
type. -/
theorem permissive_refuses_iff (t : Target) (qs : List Request) :
    let e := (Engine.new t false).serveAll qs
    ((∀ name type, ∃ v, e.reply (.declareGlobal name type) = .ok (.value v)) ∧
      (∀ type, ∃ v, e.reply (.alloc type) = .ok (.value v)) ∧
      (∀ name args, ∃ v, e.reply (.call name args) = .ok (.value v)) ∧
      (∀ name args type, ∃ v, e.reply (.callAs name args type) = .ok (.value v)) ∧
      (∀ v, e.reply (.print v) = .ok .done) ∧
      (∀ v, e.reply (.printFloat v) = .ok .done)) ∧
    (∀ name lit type x, e.reply (.declareConst name lit type) = .error x ↔
      lit.kind ≠ .number ∧ lit.kind ≠ .string ∧ x = .notLiteral name lit.kind) ∧
    (∀ v type x, e.reply (.load v type) = .error x ↔ v.kind = .string ∧ x = .loadString) ∧
    (∀ v type x, e.reply (.cast v type) = .error x ↔
      (v.kind = .string ∨ v.kind = .empty) ∧ x = .castOperand v.kind) ∧
    (∀ name params x, e.reply (.beginFunction name params) = .error x ↔
      ∃ g, e.current = some g ∧ x = .functionOpen name g.name) ∧
    ∀ f x,
      (∀ name type, e.reply (.declareLocal f name type) = .error x ↔
        ¬ Opens f e ∧ x = .functionEnded f.name) ∧
      (e.reply (.endFunction f) = .error x ↔ ¬ Opens f e ∧ x = .functionEnded f.name) ∧
      (∀ name, e.reply (.param f name) = .error x ↔ ¬ Opens f e ∧ x = .functionEnded f.name ∨
        ∃ g, e.current = some g ∧ g.id = f.id ∧ g.cached.get? name = none ∧
          (∀ p ∈ g.params, p.name ≠ name) ∧ x = .unknownParam name g.name) ∧
      ∀ v, e.reply (.returnValue f v) = .error x ↔ ¬ Opens f e ∧ x = .functionEnded f.name ∨
        ∃ g, e.current = some g ∧ g.id = f.id ∧ v.kind = .string ∧ v.isFloat = false ∧
          x = .returnString g.name := by
  intro e
  have he : e.Permissive := Permissive.serveAll ⟨rfl, rfl⟩ qs
  have hdone : ∀ {m : Emit Unit}, m.Lenient → ((Reply.ofUnit <$> m) e).1 = .ok .done := by
    intro m hm
    obtain ⟨_, hreply⟩ := reply_of_lenient Reply.ofUnit hm he
    exact hreply
  refine ⟨⟨fun name type => reply_of_lenient .value (.declareGlobal name type) he,
      fun type => reply_of_lenient .value (.allocReg type) he,
      fun name args => reply_of_lenient .value (.call name args) he,
      fun name args type => reply_of_lenient .value (.callAs name args type) he,
      fun v => hdone (.print v), fun v => hdone (.printFloat v)⟩,
    fun _ _ _ _ => reply_error_iff.trans (declareConst_fails_iff he),
    fun _ _ _ => reply_error_iff.trans (loadValue_fails_iff he),
    fun _ _ _ => reply_error_iff.trans (cast_fails_iff he),
    fun _ _ _ => reply_error_iff.trans (beginFunction_fails_iff he),
    fun f x => ⟨fun _ _ => reply_error_iff.trans (declareLocal_fails_iff he),
      reply_error_iff.trans (endFunction_fails_iff he),
      fun _ => reply_error_iff.trans (param_fails_iff he),
      fun _ => reply_error_iff.trans (returnValue_fails_iff he)⟩⟩

end Engine

end Assembly
