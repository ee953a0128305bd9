import Assembly.Proofs.Engine.Effects
import Assembly.Proofs.Engine.Part

/-!
# Operations that stay in their function

An operation is confined if it neither begins nor ends a function, and if no refusal of it is
about the function that is open or about a failure of the caller.  All operations but those
that begin or end a function are confined; the ones that are asked of a function have to be
asked of the open one.
-/

namespace Assembly

theorem EmitError.isOrdinary_congr {x y : EmitError} (h : x.root = y.root) :
    x.isOrdinary = y.isOrdinary := by
  rw [isOrdinary, isOrdinary, h]

theorem Move.inner_of_plain {m : Move} (h : m.plain) : m.inner := by
  cases m with
  | enter | leave => cases h
  | _ => rfl

theorem Move.inner_of_keeps {name : Text} {m : Move} (h : m.keeps name) : m.inner := by
  cases m with
  | enter | leave => cases h
  | _ => rfl

/-! ## The open function -/

theorem Engine.id_make {e : Engine} {m : Move} (h : m.inner) :
    (e.make m).current.map (·.id) = e.current.map (·.id) := by
  cases m with
  | enter | leave => cases h
  | instr | raw =>
    simp only [make, addLine]
    cases e.current <;> simp [Frame.addLine]
  | define => simp only [make, addSymbol]; split <;> rfl
  | link b => cases b <;> rfl
  | take c =>
    rw [make_take]
    obtain hk | ⟨a, g, -, hk | hk⟩ := e.take_cases c
    · rw [hk]
    · rw [hk]
    · rw [hk]
      cases e.current with
      | none => rfl
      | some f => simp only [Option.map_some, Frame.noteClobber]; split <;> rfl
  | addLocal name type =>
    simp only [make, mapCurrent]
    cases e.current <;> rfl
  | cache name v =>
    simp only [make, mapCurrent]
    cases e.current <;> rfl
  | _ => rfl

theorem Engine.id_makeAll {e : Engine} {ms : List Move} (h : ∀ m ∈ ms, m.inner) :
    (e.makeAll ms).current.map (·.id) = e.current.map (·.id) := by
  induction ms generalizing e with
  | nil => rfl
  | cons m ms ih =>
    rw [makeAll_cons, ih fun k hk => h k (List.mem_cons_of_mem m hk)]
    exact id_make (h m List.mem_cons_self)

namespace Emit

variable {α β : Type}

/-- On an engine, the operation makes only moves inside a function, and is refused only for
reasons of its own. -/
def ConfinedAt (m : Emit α) (e : Engine) : Prop :=
  (∀ k ∈ (m e).2, k.inner) ∧ ∀ x, (m e).1 = .error x → x.isOrdinary

def Confined (m : Emit α) : Prop := ∀ e, m.ConfinedAt e

namespace ConfinedAt

theorem id {m : Emit α} {e : Engine} (h : m.ConfinedAt e) :
    (e.makeAll (m e).2).current.map (·.id) = e.current.map (·.id) :=
  Engine.id_makeAll h.1

theorem bind {m : Emit α} {f : α → Emit β} {e : Engine} (hm : m.ConfinedAt e)
    (hf : ∀ a, (m e).1 = .ok a → (f a).ConfinedAt (e.makeAll (m e).2)) :
    (m >>= f).ConfinedAt e := by
  rw [ConfinedAt, bind_apply]
  cases hr : (m e).1 with
  | error x => exact ⟨hm.1, fun y hy => by cases hy; exact hm.2 x hr⟩
  | ok a =>
    obtain ⟨hmoves, hrefusal⟩ := hf a hr
    refine ⟨fun k hk => ?_, hrefusal⟩
    rcases List.mem_append.mp hk with hk | hk
    · exact hm.1 k hk
    · exact hmoves k hk

end ConfinedAt

namespace Confined

theorem moves {ms : List Move} (h : ∀ k ∈ ms, k.inner) : (Emit.moves ms).Confined :=
  fun _ => ⟨h, fun _ hx => by cases hx⟩

theorem move {m : Move} (h : m.inner) : (Emit.move m).Confined :=
  moves (List.forall_mem_singleton.mpr h)

theorem instrs (is : List Instr) : (Emit.instrs is).Confined := moves (Move.inner_instrs is)

theorem pure (a : α) : (Pure.pure a : Emit α).Confined :=
  fun _ => ⟨List.forall_mem_nil _, fun _ hx => by cases hx⟩

theorem throw {x : EmitError} (h : x.isOrdinary) : (MonadExcept.throw x : Emit α).Confined :=
  fun _ => ⟨List.forall_mem_nil _, fun _ hy => by cases hy; exact h⟩

theorem bind {m : Emit α} {f : α → Emit β} (hm : m.Confined) (hf : ∀ a, (f a).Confined) :
    (m >>= f).Confined :=
  fun e => (hm e).bind fun a _ => hf a _

theorem reading {f : Engine → Emit β} (hf : ∀ e, (f e).Confined) :
    (MonadReader.read >>= f).Confined :=
  fun e => hf e e

theorem ite {c : Prop} [Decidable c] {m n : Emit α} (hm : m.Confined) (hn : n.Confined) :
    (if c then m else n).Confined := by
  split
  · exact hm
  · exact hn

theorem rewording {m : Emit α} {words : EmitError → EmitError}
    (hwords : ∀ x, (words x).root = x.root) (hm : m.Confined) : (m.rewording words).Confined := by
  intro e
  refine ⟨(hm e).1, fun x hx => ?_⟩
  have hmap : (m e).1.mapError words = .error x := hx
  cases hr : (m e).1 with
  | ok a =>
    rw [hr] at hmap
    cases hmap
  | error y =>
    rw [hr] at hmap
    cases hmap
    rw [EmitError.isOrdinary_congr (hwords y)]
    exact (hm e).2 y hr

theorem finishing {m : Emit α} {last : Emit Unit} (hm : m.Confined) (hlast : last.Confined) :
    (m.finishing last).Confined := by
  intro e
  refine ⟨fun k hk => ?_, (hm e).2⟩
  rcases List.mem_append.mp hk with hk | hk
  · exact (hm e).1 k hk
  · exact (hlast _).1 k hk

/-! ## Policy, registers and constants -/

theorem checkType (type : Text) : (Emit.checkType type).Confined := by
  intro e
  rw [ConfinedAt, checkType_run]
  split
  · exact pure () e
  · split
    · exact ⟨List.forall_mem_nil _, fun _ hx => by cases hx; rfl⟩
    · exact move rfl e

theorem claimSymbol (name : Text) : (Emit.claimSymbol name).Confined := by
  refine reading fun e => ?_
  have hdefine : (Emit.move (.define name)).Confined := move rfl
  have hwarn : (do Emit.warn "duplicate symbol" [("name", name)]; Emit.move (.define name) :
      Emit Unit).Confined := (move rfl).bind fun _ => hdefine
  exact ite (ite ((throw rfl).bind fun _ => hwarn) hwarn) hdefine

theorem allocRegAs (type : Text) (temp : Bool) : (Emit.allocRegAs type temp).Confined := by
  refine reading fun e => ?_
  dsimp only
  split
  · exact throw rfl
  · have hlast : ∀ fields v, (do Emit.debug "alloc" fields; return v : Emit Value).Confined :=
      fun fields v => (move rfl).bind fun _ => pure v
    exact (move rfl).bind fun _ => ite ((move rfl).bind fun _ => hlast _ _) (hlast _ _)

theorem release (v : Value) : (Emit.release v).Confined :=
  reading fun _ => ite ((move rfl).bind fun _ => move rfl) (pure ())

theorem addGenerated (name : Text) (directive : Directive) (content : Content) :
    (Emit.addGenerated name directive content).Confined :=
  (move rfl).bind fun _ => move rfl

theorem joining (b : Builtin) : ∀ k ∈ Emit.joining b, k.inner := by
  cases b <;> decide

theorem need (b : Builtin) : (Emit.need b).Confined := by
  intro e
  cases b with
  | printInt =>
    rw [ConfinedAt, need_printInt]
    refine ⟨?_, fun _ hx => by cases hx⟩
    split
    · exact List.forall_mem_nil _
    · exact joining .printInt
  | printFloat =>
    rw [ConfinedAt, need_printFloat]
    refine ⟨?_, fun _ hx => by cases hx⟩
    split
    · exact List.forall_mem_nil _
    · refine List.forall_mem_append.mpr ⟨?_, joining _⟩
      split
      · exact List.forall_mem_nil _
      · exact joining _

theorem part {q : Request} {known : List Text} {m : Emit α} (hq : q.within) (h : Part q known m) :
    m.Confined := by
  induction h with
  | pure a => exact pure a
  | throw _ hx => exact throw hx
  | bind _ _ ihm ihf => exact ihm.bind ihf
  | reading _ _ ih => exact reading ih
  | rewording hwords _ ih => exact ih.rewording hwords
  | finishing _ v ih => exact ih.finishing (release v)
  | moves h => exact moves fun k hk => Move.inner_of_plain (h k hk)
  | leave h => cases hq.symm.trans h
  | instrs is => exact moves (Move.inner_instrs is)
  | calls => exact move rfl
  | checkType type => exact checkType type
  | claimSymbol => exact claimSymbol _
  | keeping _ hm => exact move (Move.inner_of_keeps hm)
  | allocRegAs type temp => exact allocRegAs type temp
  | release v => exact release v
  | addLiteral _ directive content _ ih => 
    refine bind (reading fun e => ?_) ih
    exact (move rfl).bind fun _ => (addGenerated _ _ _).bind fun _ => pure _
  | printString s =>
    exact reading fun e => (move rfl).bind fun _ => (addGenerated _ _ _).bind fun _ => instrs _
  | need b _ ih => exact (need b).bind fun _ => ih

/-- The operation that a request asks for which is not about a function. -/
theorem of_asksFor {q : Request} {m : Emit α} (hq : q.isPart) (h : q.AsksFor m) : m.Confined := by
  obtain ⟨tell, -, hemit⟩ := h
  have hwithin := Request.within_of_isInner (Request.isInner_of_isPart hq)
  intro e
  have hat : q.emit.ConfinedAt e := part hwithin (Request.part_of_isPart hq) e
  rw [hemit, ConfinedAt, map_apply] at hat
  refine ⟨hat.1, fun x hx => hat.2 x ?_⟩
  rw [hx]
  rfl

end Confined

/-! ## Operations on the open function -/

/-- The function of an operation is the one that is open. -/
def Opens (f : FunctionRef) (e : Engine) : Prop := e.current.map (·.id) = some f.id

theorem openFrame_of_opens {f : FunctionRef} {e : Engine} (h : Opens f e) :
    ∃ g, e.current = some g ∧ openFrame f e = (.ok g, []) := by
  obtain ⟨g, hg, hid⟩ := Option.map_eq_some_iff.mp h
  refine ⟨g, hg, ?_⟩
  rw [openFrame_run, hg]
  exact if_pos hid

theorem openFrame_bind {rest : Frame → Emit α} {f : FunctionRef} {e : Engine} (h : Opens f e)
    (hrest : ∀ g, (rest g).Confined) : (openFrame f >>= rest).ConfinedAt e := by
  obtain ⟨g, -, hopen⟩ := openFrame_of_opens h
  refine ConfinedAt.bind ?_ fun g _ => hrest g _
  rw [ConfinedAt, hopen]
  exact Confined.pure g e

theorem addLocal_confined (type name : Text) (g : Frame) :
    (checkType type >>= fun _ => addLocal g name type).Confined := by
  refine (Confined.checkType type).bind fun _ e => ?_
  rw [ConfinedAt, addLocal_run]
  split
  · exact Confined.throw (α := Value) (x := .duplicateLocal name g.name) rfl e
  · exact ⟨List.forall_mem_singleton.mpr rfl, fun _ hx => by cases hx⟩

theorem declareLocal_confined {f : FunctionRef} {e : Engine} (h : Opens f e) (name type : Text) :
    (declareLocal f name type).ConfinedAt e := openFrame_bind h (addLocal_confined type name)

theorem onFrame_confined {q : Request} {known : List Text} {op : FunctionRef → Emit α}
    (hq : q.within) (hop : OnFrame q known op) {f : FunctionRef} {e : Engine} (h : Opens f e) :
    (op f).ConfinedAt e := by
  obtain ⟨rest, hop, hpart, -⟩ := hop
  rw [hop]
  exact openFrame_bind h fun g => .part hq (hpart g)

/-- What is asked of a function that is not open makes no moves. -/
theorem openFrame_bind_inner {rest : Frame → Emit α} (h : ∀ g, (rest g).Confined) (f : FunctionRef)
    (e : Engine) : ∀ k ∈ ((openFrame f >>= rest) e).2, k.inner := by
  rw [bind_apply, openFrame_moves]
  cases (openFrame f e).1 with
  | error x => exact List.forall_mem_nil _
  | ok g => exact (h g e).1

/-! ## The bounds of a function -/

theorem claimFunction_confined (name : Text) (params : List Param) :
    (claimFunction name params).Confined := by
  refine (Confined.claimSymbol name).bind fun _ => ?_
  induction params with
  | nil => exact .pure ()
  | cons p rest ih =>
    have hp : ((checkType p.type).rewording (.parameter name p.name)).Confined :=
      (Confined.checkType p.type).rewording fun _ => rfl
    exact hp.bind fun _ => ih

/-- A function begun while none is open is refused only for its name or its parameters. -/
theorem beginFunction_ordinary {name : Text} {params : List Param} {e : Engine}
    (h : e.current = none) {x : EmitError} (hx : (beginFunction name params e).1 = .error x) :
    x.isOrdinary := by
  rw [beginFunction_run, h] at hx
  dsimp only at hx
  rw [bind_apply] at hx
  cases hr : (claimFunction name params e).1 with
  | error y =>
    rw [hr] at hx
    cases hx
    exact (claimFunction_confined name params e).2 _ hr
  | ok u =>
    rw [hr] at hx
    cases hx

theorem opens_of_beginFunction {name : Text} {params : List Param} {e : Engine} {f : FunctionRef}
    {ms : List Move} (h : (beginFunction name params).Grants e f ms) : Opens f (e.makeAll ms) := by
  obtain ⟨hnone, rfl, hessence⟩ := beginFunction_moves h
  rw [Opens, Engine.current_makeAll, hessence]
  simp [Engine.make, Engine.enter, hnone, Frame.new]

/-- The open function can always be ended, and none is open afterwards. -/
theorem endFunction_of_opens {f : FunctionRef} {e : Engine} (h : Opens f e) :
    ∃ ms, (endFunction f).Grants e () ms ∧ (e.makeAll ms).current = none := by
  obtain ⟨g, hg, hopen⟩ := openFrame_of_opens h
  have hgrant : (endFunction f).Grants e () (endFunction f e).2 := by
    rw [endFunction, Grants, bind_apply, hopen]
    rfl
  refine ⟨_, hgrant, ?_⟩
  rw [Engine.current_makeAll, endFunction_moves hgrant]
  simp [Engine.make, Engine.leave, hg]

end Emit

open Emit in
/-- Whether or not it is granted, a request neither begins nor ends a function unless it asks for
that. -/
theorem Request.inner_moves {q : Request} (h : q.within) (e : Engine) :
    ∀ k ∈ e.movesOf q, k.inner := by
  show ∀ k ∈ (q.emit e).2, k.inner
  cases q.shape with
  | part _ hpart => exact (Confined.part h hpart e).1
  | onFrame f hshift hop =>
    obtain ⟨rest, hop, hpart, -⟩ := hop
    rw [← q.shift_zero, hshift, hop]
    exact openFrame_bind_inner (fun g => .part h (hpart g)) _ e
  | @declareLocal f name type hq =>
    subst hq
    rw [emit, map_apply]
    exact openFrame_bind_inner (addLocal_confined type name) f e
  | beginFunction hq => subst hq; cases h
  | finalize hq =>
    subst hq
    rw [emit, map_apply, finalize_run]
    intro k hk
    obtain ⟨f, -, rfl⟩ := List.mem_map.mp hk
    rfl

end Assembly
