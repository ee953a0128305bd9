import Assembly.Proofs.Numeral.Constant

/-!
# Engines without floating code

An engine is integral if it has no floating instruction, no floating constant and not the routine
that prints floating numbers, and if nothing in the open function has a floating type.  Moves that
are not floating keep it so.

An operation that is asked for no floating type, and is handed no value of one, makes no such move,
and answers with a value that is not floating either: `StaysIntegral`, with one lemma for each
operation.  On the other hand, a number literal of a floating type is never used without being
stored as a floating constant, so that afterwards the engine is not integral.
-/

namespace Assembly

open Text Emit

/-! ## What is floating -/

/-- The instructions on floating registers, and those on the floating stack. -/
def Mnemonic.isFloating : Mnemonic → Bool
  | .movss | .movsd | .subsd | .mulsd | .xorpd | .pxor | .ucomisd | .cvtsi2ss | .cvtsi2sd
  | .cvtss2si | .cvtsd2si | .cvttsd2si | .cvtss2sd | .cvtsd2ss | .fld | .fild | .fistp | .fstp
  | .fsubp | .fimul | .fabs | .ftst | .fnstcw | .fldcw | .fnstsw => true
  | _ => false

def Line.isFloating : Line → Bool
  | instr i => i.mnemonic.isFloating
  | _ => false

/-- A number is stored as floating if it has a point or an exponent. -/
def Content.isFloating : Content → Bool
  | number spelling => hasAny ".eE" spelling
  | bytes _ _ => false

/-- A number literal without a point and an exponent, or another value that is not floating. -/
def Value.isUnmarked (v : Value) : Bool :=
  if v.kind = .number then !hasAny ".eE" v.text else !v.isFloat

/-- A value by which nothing floating can be emitted. -/
def Value.isIntegral (v : Value) : Bool := v.isUnmarked && !v.isFloat

def Move.isFloating : Move → Bool
  | instr i => i.mnemonic.isFloating
  | store d => d.content.isFloating
  | link b => b = .printFloat
  | enter _ params => params.any fun p => TypePolicy.isFloat p.type
  | cache _ v => !v.isIntegral
  | _ => false

namespace Engine

structure Integral (e : Engine) : Prop where
  code : ∀ l ∈ e.lines, l.isFloating = false
  data : ∀ d ∈ e.data, d.content.isFloating = false
  routine : e.printFloatAdded = false
  params : ∀ f, e.current = some f → ∀ p ∈ f.params, TypePolicy.isFloat p.type = false
  cached : ∀ f, e.current = some f → ∀ q ∈ f.cached, q.2.isIntegral

theorem integral_new (t : Target) (strict : Bool) : (new t strict).Integral :=
  ⟨List.forall_mem_nil _, List.forall_mem_nil _, rfl, fun _ h => (by cases h),
    fun _ h => (by cases h)⟩

/-! ## Moves -/

variable {e : Engine} {m : Move} {ms : List Move}

theorem mem_data_make {d : Datum} : d ∈ (e.make m).data ↔ d ∈ e.data ∨ m = .store d := by
  have hdata : (e.make m).data = (e.stock.note e.target m).data :=
    congrArg Stock.data (e.make_stock m)
  rw [hdata]
  cases m with
  | store c => simp [Stock.note, stock, eq_comm]
  | link b => cases b <;> simp [Stock.note, stock]
  | _ => simp [Stock.note, stock]

theorem mem_data_makeAll {d : Datum} : d ∈ (e.makeAll ms).data ↔ d ∈ e.data ∨ .store d ∈ ms := by
  induction ms generalizing e with
  | nil => simp
  | cons m ms ih => rw [makeAll_cons, ih, mem_data_make, List.mem_cons, or_assoc, @eq_comm _ m]

theorem current_addLine (e : Engine) (l : Line) :
    (e.addLine l).current = e.current.map (·.addLine l) := by
  rw [addLine]
  split
  next f hf => rw [hf]; rfl
  next hf => rw [hf]; rfl

/-- The open function after a move is the one before it, with perhaps a parameter cached, or it was
entered by the move. -/
theorem frame_make {f : Frame} (h : (e.make m).current = some f) :
    (∃ g, e.current = some g ∧ f.params = g.params ∧
      ∀ q ∈ f.cached, q ∈ g.cached ∨ m = .cache q.1 q.2) ∨
    ∃ name, m = .enter name f.params ∧ f.cached = [] := by
  -- Most moves change nothing that matters here in the open function.
  have hsame : ∀ k : Frame → Frame, (∀ g, (k g).params = g.params ∧ (k g).cached = g.cached) →
      e.current.map k = some f → ∃ g, e.current = some g ∧ f.params = g.params ∧
        ∀ q ∈ f.cached, q ∈ g.cached ∨ m = .cache q.1 q.2 := by
    intro k hk hcurrent
    obtain ⟨g, hg, rfl⟩ := Option.map_eq_some_iff.mp hcurrent
    exact ⟨g, hg, (hk g).1, fun q hq => .inl ((hk g).2 ▸ hq)⟩
  have hkept : e.current = some f → ∃ g, e.current = some g ∧ f.params = g.params ∧
      ∀ q ∈ f.cached, q ∈ g.cached ∨ m = .cache q.1 q.2 :=
    fun hf => ⟨f, hf, rfl, fun q hq => .inl hq⟩
  cases m with
  | instr i =>
    rw [make, current_addLine] at h
    exact .inl (hsame (·.addLine (.instr i)) (fun g => ⟨rfl, rfl⟩) h)
  | raw t =>
    rw [make, current_addLine] at h
    exact .inl (hsame (·.addLine (.raw t)) (fun g => ⟨rfl, rfl⟩) h)
  | define =>
    simp only [make, addSymbol] at h
    split at h <;> exact .inl (hkept h)
  | link b => cases b <;> exact .inl (hkept h)
  | take c =>
    rw [make] at h
    obtain hk | ⟨a, g, -, hk | hk⟩ := e.take_cases c
    · rw [hk] at h; exact .inl (hkept h)
    · rw [hk] at h; exact .inl (hkept h)
    · rw [hk] at h
      refine .inl (hsame (·.noteClobber a.reg) (fun g => ?_) h)
      rw [Frame.noteClobber]
      split <;> exact ⟨rfl, rfl⟩
  | enter name params =>
    simp only [make, enter] at h
    split at h
    next => exact .inl (hkept h)
    next =>
      cases h
      exact .inr ⟨name, rfl, rfl⟩
  | addLocal name type => exact .inl (hsame (·.addLocal e.target name type) (fun g => ⟨rfl, rfl⟩) h)
  | cache name v =>
    obtain ⟨g, hg, rfl⟩ := Option.map_eq_some_iff.mp h
    refine .inl ⟨g, hg, rfl, fun q hq => ?_⟩
    rcases List.mem_cons.mp hq with rfl | hq
    · exact .inr rfl
    · exact .inl (List.mem_filter.mp hq).1
  | leave =>
    simp only [make, leave] at h
    split at h
    next => cases h
    next => exact .inl (hkept h)
  | _ => exact .inl (hkept h)

theorem isFloating_of_isFraming {l : Line} (h : l.isFraming) : l.isFloating = false := by
  cases l with
  | instr i =>
    have hm := (Bool.and_eq_true_iff.mp h).2
    have hall : ∀ m ∈ [Mnemonic.push, .pop, .mov, .sub, .ret], m.isFloating = false := by decide
    exact hall _ (List.contains_iff_mem.mp hm)
  | _ => rfl

theorem printInt_not_floating (t : Target) :
    ∀ l ∈ Builtin.printInt.code t, l.isFloating = false := by
  cases t <;> decide +kernel

theorem Integral.make (h : e.Integral) (hm : m.isFloating = false) : (e.make m).Integral := by
  refine ⟨fun l hl => ?_, fun d hd => ?_, ?_, fun f hf => ?_, fun f hf => ?_⟩
  · rcases mem_lines_make hl with hold | hframing | ⟨i, rfl, rfl⟩ | ⟨b, rfl, hcode⟩
    · exact h.code l hold
    · exact isFloating_of_isFraming hframing
    · exact hm
    · cases b with
      | printInt => exact printInt_not_floating e.target l hcode
      | printFloat => cases hm
  · rcases mem_data_make.mp hd with hold | rfl
    · exact h.data d hold
    · exact hm
  · rw [Bool.eq_false_iff]
    intro hadded
    rcases (e.hasBuiltin_make m .printFloat).mp hadded with hold | rfl
    · rw [hasBuiltin, h.routine] at hold
      cases hold
    · cases hm
  · rcases frame_make hf with ⟨g, hg, hparams, -⟩ | ⟨name, rfl, -⟩
    · rw [hparams]
      exact h.params g hg
    · intro p hp
      simpa using List.any_eq_false.mp hm p hp
  · rcases frame_make hf with ⟨g, hg, -, hcached⟩ | ⟨name, -, hnil⟩
    · intro q hq
      rcases hcached q hq with hold | rfl
      · exact h.cached g hg q hold
      · simpa [Move.isFloating] using hm
    · rw [hnil]
      exact List.forall_mem_nil _

theorem Integral.makeAll (h : e.Integral) (hms : ∀ m ∈ ms, m.isFloating = false) :
    (e.makeAll ms).Integral := by
  induction ms generalizing e with
  | nil => exact h
  | cons m ms ih =>
    exact ih (h.make (hms m List.mem_cons_self)) fun k hk => hms k (List.mem_cons_of_mem m hk)

end Engine

/-! ## Instructions and types -/

@[simp] theorem isFloat_nil : TypePolicy.isFloat [] = false := by decide

namespace Target

variable (t : Target)

@[simp] theorem isFloat_wordType : TypePolicy.isFloat t.wordType = false := by cases t <;> decide

theorem isFloat_typeOrWord {type : Text} :
    TypePolicy.isFloat (t.typeOrWord type) = TypePolicy.isFloat type := by
  rw [typeOrWord]
  split
  next h => rw [List.isEmpty_iff.mp h, isFloat_wordType, isFloat_nil]
  next => rfl

theorem isFloating_signExtend (size : Nat) : (t.signExtend size).isFloating = false := by
  rw [signExtend]
  split <;> rfl

theorem isFloating_intLoad (reg : Text) (v : Value) (type : Text) :
    (t.intLoad reg v type).mnemonic.isFloating = false := by
  simp only [intLoad]
  split
  · rfl
  · split
    · exact t.isFloating_signExtend _
    · rfl

theorem isFloating_load (reg : Text) (v : Value) {type : Text}
    (h : TypePolicy.isFloat type = false) :
    (t.load reg v type).mnemonic.isFloating = false := by
  rw [load, h]
  exact t.isFloating_intLoad reg v type

theorem isFloating_widening (v : Value) : ∀ i ∈ t.widening v, i.mnemonic.isFloating = false := by
  intro i hi
  simp only [widening] at hi
  split at hi
  · rw [List.mem_singleton.mp hi]
    exact t.isFloating_signExtend _
  · cases hi

theorem isFloating_intToInt (dst : Text) (v : Value) (type : Text) :
    (t.intToInt dst v type).mnemonic.isFloating = false := by
  simp only [intToInt]
  split
  · rfl
  · split
    · split
      · exact t.isFloating_signExtend _
      · exact t.isFloating_signExtend _
    · split <;> rfl

theorem isFloating_fetch (reg : Text) {type : Text} (h : TypePolicy.isFloat type = false)
    (slot : Address) : (t.fetch reg type slot).mnemonic.isFloating = false := by
  simp only [fetch, h]
  split
  next hfloat => cases hfloat
  next =>
    split
    · exact t.isFloating_signExtend _
    · rfl

theorem isFloating_intReturn (v : Value) : (t.intReturn v).mnemonic.isFloating = false := by
  simp only [intReturn]
  split
  · exact t.isFloating_signExtend _
  · rfl

theorem isFloating_callThenDrop (name : Text) (count : Nat) :
    ∀ i ∈ t.callThenDrop name count, i.mnemonic.isFloating = false := by
  intro i hi
  rcases List.mem_cons.mp hi with rfl | hi
  · rfl
  · split at hi
    · cases hi
    · rw [List.mem_singleton.mp hi]
      rfl

theorem isFloating_writeCall (label : Text) (size : Nat) :
    ∀ i ∈ t.writeCall label size, i.mnemonic.isFloating = false := by
  cases t <;> simp [writeCall, writeArgs, trap, Mnemonic.isFloating]

theorem isFloating_exitCall (code : Int) :
    ∀ i ∈ t.exitCall code, i.mnemonic.isFloating = false := by
  intro i hi
  cases t <;> simp only [exitCall, exitArgs, trap, List.cons_append, List.nil_append, List.mem_cons,
    List.not_mem_nil, or_false] at hi
  · rcases hi with rfl | rfl | rfl <;> rfl
  · rcases hi with rfl | rfl | rfl
    · rfl
    · split <;> rfl
    · rfl
  · rcases hi with rfl | rfl | rfl <;> rfl

end Target

/-! ## Values -/

namespace Value

theorem isIntegral_iff {v : Value} : v.isIntegral ↔ v.isUnmarked ∧ v.isFloat = false := by
  simp [isIntegral]

theorem isIntegral_of_kind {v : Value} (hkind : v.kind ≠ .number) :
    v.isIntegral = !v.isFloat := by
  rw [isIntegral, isUnmarked, if_neg hkind, Bool.and_self]

theorem isIntegral_register (reg : Text) {type : Text} (temp : Bool)
    (h : TypePolicy.isFloat type = false) : (ofRegister reg type temp).isIntegral := by
  rw [isIntegral_of_kind (by simp [ofRegister]), isFloat]
  simp [ofRegister, h]

end Value

theorem Bindings.mem_of_get? {b : Bindings} {name : Text} {v : Value} (h : b.get? name = some v) :
    (name, v) ∈ b := by
  obtain ⟨front, back, rfl, -⟩ := List.lookup_eq_some_iff.mp h
  exact List.mem_append_right front List.mem_cons_self

/-! ## Operations -/

namespace Emit

variable {α β : Type}

/-- On integral engines the operation makes no floating move, and what it answers is so. -/
def StaysIntegral (m : Emit α) (p : α → Prop) : Prop :=
  ∀ e : Engine, e.Integral → (∀ k ∈ (m e).2, k.isFloating = false) ∧ ∀ a, (m e).1 = .ok a → p a

namespace StaysIntegral

variable {p : α → Prop} {q : β → Prop}

theorem moves {ms : List Move} (h : ∀ k ∈ ms, k.isFloating = false) :
    (Emit.moves ms).StaysIntegral fun _ => True :=
  fun _ _ => ⟨h, fun _ _ => trivial⟩

theorem move {m : Move} (h : m.isFloating = false) : (Emit.move m).StaysIntegral fun _ => True :=
  moves (List.forall_mem_singleton.mpr h)

theorem instr {i : Instr} (h : i.mnemonic.isFloating = false) :
    (Emit.instr i).StaysIntegral fun _ => True :=
  move h

theorem instrs {is : List Instr} (h : ∀ i ∈ is, i.mnemonic.isFloating = false) :
    (Emit.instrs is).StaysIntegral fun _ => True := by
  refine moves fun k hk => ?_
  obtain ⟨i, hi, rfl⟩ := List.mem_map.mp hk
  exact h i hi

theorem pure {a : α} (h : p a) : (Pure.pure a : Emit α).StaysIntegral p :=
  fun _ _ => ⟨List.forall_mem_nil _, fun _ hb => by cases hb; exact h⟩

theorem throw (x : EmitError) : (MonadExcept.throw x : Emit α).StaysIntegral p :=
  fun _ _ => ⟨List.forall_mem_nil _, fun _ hb => by cases hb⟩

theorem bind {m : Emit α} {f : α → Emit β} (hm : m.StaysIntegral p)
    (hf : ∀ a, p a → (f a).StaysIntegral q) : (m >>= f).StaysIntegral q := by
  intro e he
  obtain ⟨hmoves, hanswer⟩ := hm e he
  rw [bind_apply]
  cases hr : (m e).1 with
  | error x => exact ⟨hmoves, fun _ hb => by cases hb⟩
  | ok a =>
    obtain ⟨hrest, hlast⟩ := hf a (hanswer a hr) _ (he.makeAll hmoves)
    refine ⟨fun k hk => ?_, hlast⟩
    rcases List.mem_append.mp hk with hk | hk
    · exact hmoves k hk
    · exact hrest k hk

theorem reading {f : Engine → Emit β} (hf : ∀ e : Engine, e.Integral → (f e).StaysIntegral q) :
    (MonadReader.read >>= f).StaysIntegral q :=
  fun e he => hf e he e he

theorem ite {c : Prop} [Decidable c] {m n : Emit α} (hm : c → m.StaysIntegral p)
    (hn : ¬ c → n.StaysIntegral p) : (if c then m else n).StaysIntegral p := by
  split
  next h => exact hm h
  next h => exact hn h

theorem rewording {m : Emit α} (hm : m.StaysIntegral p) (words : EmitError → EmitError) :
    (m.rewording words).StaysIntegral p := by
  intro e he
  refine ⟨(hm e he).1, fun a ha => ?_⟩
  have hmap : (m e).1.mapError words = .ok a := ha
  cases hr : (m e).1 with
  | ok b =>
    rw [hr] at hmap
    cases hmap
    exact (hm e he).2 a hr
  | error x =>
    rw [hr] at hmap
    cases hmap

theorem finishing {m : Emit α} {last : Emit Unit} (hm : m.StaysIntegral p)
    (hlast : last.StaysIntegral fun _ => True) : (m.finishing last).StaysIntegral p := by
  intro e he
  obtain ⟨hmoves, hanswer⟩ := hm e he
  refine ⟨fun k hk => ?_, hanswer⟩
  rcases List.mem_append.mp hk with hk | hk
  · exact hmoves k hk
  · exact (hlast _ (he.makeAll hmoves)).1 k hk

/-! ### Policy, registers and constants -/

theorem checkType (type : Text) : (Emit.checkType type).StaysIntegral fun _ => True := by
  intro e he
  rw [checkType_run]
  split
  · exact pure (a := ()) trivial e he
  · split
    · exact throw _ e he
    · exact move (m := .log _ _ _) rfl e he

theorem claimSymbol (name : Text) : (Emit.claimSymbol name).StaysIntegral fun _ => True := by
  refine reading fun e _ => ?_
  have hdefine : (Emit.move (.define name)).StaysIntegral fun _ => True := move rfl
  have hwarn : (do Emit.warn "duplicate symbol" [("name", name)]; Emit.move (.define name) :
      Emit Unit).StaysIntegral fun _ => True := (move rfl).bind fun _ _ => hdefine
  refine ite (fun _ => ite (fun _ => ?_) fun _ => hwarn) fun _ => hdefine
  exact (throw (p := fun _ => True) _).bind fun _ _ => hwarn

theorem allocRegAs {type : Text} (h : TypePolicy.isFloat type = false) (temp : Bool) :
    (Emit.allocRegAs type temp).StaysIntegral fun v => v.isIntegral := by
  refine reading fun e _ => ?_
  dsimp only
  split
  · exact throw _
  next a g _ =>
    have hreg := Value.isIntegral_register a.reg temp h
    have hlast : ∀ fields, (do
        Emit.debug "alloc" fields
        return .ofRegister a.reg type temp : Emit Value).StaysIntegral fun v => v.isIntegral :=
      fun fields => (move rfl).bind fun _ _ => pure hreg
    exact (move rfl).bind fun _ _ =>
      ite (fun _ => (move rfl).bind fun _ _ => hlast _) fun _ => hlast _

theorem release (v : Value) : (Emit.release v).StaysIntegral fun _ => True :=
  reading fun _ _ => ite (fun _ => (move rfl).bind fun _ _ => move rfl) fun _ => pure trivial

theorem withTemp {type : Text} (h : TypePolicy.isFloat type = false) {body : Value → Emit α}
    (hbody : ∀ r, (body r).StaysIntegral p) : (Emit.withTemp type body).StaysIntegral p :=
  (allocRegAs h true).bind fun r _ => (hbody r).finishing (release r)

theorem addGenerated (name : Text) (directive : Directive) {content : Content}
    (h : content.isFloating = false) :
    (Emit.addGenerated name directive content).StaysIntegral fun _ => True := by
  refine moves fun k hk => ?_
  simp only [List.mem_cons, List.not_mem_nil, or_false] at hk
  rcases hk with rfl | rfl
  · rfl
  · exact h

theorem stringLabel (t : Text) : (Emit.stringLabel t).StaysIntegral fun _ => True :=
  reading fun _ _ => (move rfl).bind fun _ _ => (addGenerated _ _ rfl).bind fun _ _ => pure trivial

/-- A value that is not headed for a floating register stays as it is. -/
theorem materialize (v : Value) {type : Text} (h : TypePolicy.isFloat type = false) :
    (Emit.materialize v type).StaysIntegral fun w => w = v := by
  rw [materialize_eq, if_pos (.inr (by simp [h]))]
  exact pure rfl

theorem declareGlobal (name : Text) {type : Text} (h : TypePolicy.isFloat type = false) :
    (Emit.declareGlobal name type).StaysIntegral fun v => v.isIntegral := by
  refine (checkType type).bind fun _ _ => (claimSymbol name).bind fun _ _ => reading fun _ _ => ?_
  refine (move rfl).bind fun _ _ => pure ?_
  rw [Value.isIntegral_of_kind (by simp [Value.ofGlobal]), Value.isFloat]
  simp [Value.ofGlobal, h]

theorem declareConst (name : Text) {lit : Value} {type : Text} (hlit : lit.isUnmarked)
    (h : ∀ t : Target, TypePolicy.isFloat (t.constantType lit type) = false) :
    (Emit.declareConst name lit type).StaysIntegral fun v => v.isIntegral := by
  have hcontent : ∀ t : Target, lit.kind = .number ∨ lit.kind = .string →
      (literalContent lit (t.constantType lit type)).isFloating = false := by
    intro t hkind
    rw [literalContent]
    split
    next => rfl
    next hstring =>
      have hnumber : lit.kind = .number := hkind.resolve_right hstring
      rw [Value.isUnmarked, if_pos hnumber] at hlit
      rw [if_neg (by simp [h t])]
      simpa [Content.isFloating] using hlit
  have hrest : lit.kind = .number ∨ lit.kind = .string → (do
      let t := (← MonadReader.read).target
      let type := if type.isEmpty then literalType t lit else type
      Emit.checkType type
      Emit.claimSymbol name
      Emit.move (.store ⟨name, t.directive type, literalContent lit type⟩)
      return .ofConstant name type : Emit Value).StaysIntegral fun v => v.isIntegral := by
    intro hkind
    refine reading fun e _ => (checkType _).bind fun _ _ => (claimSymbol name).bind fun _ _ => ?_
    have hstore : (Move.store ⟨name, e.target.directive (e.target.constantType lit type),
        literalContent lit (e.target.constantType lit type)⟩).isFloating = false :=
      hcontent e.target hkind
    refine (move hstore).bind fun _ _ => pure ?_
    rw [Value.isIntegral_of_kind (by simp [Value.ofConstant])]
    exact congrArg (!·) (h e.target)
  refine ite (fun _ => ?_) fun hkind => hrest ?_
  · exact (throw (p := fun _ => False) _).bind fun _ hfalse => hfalse.elim
  · exact Decidable.or_iff_not_imp_left.mpr fun hnumber => by simpa [hnumber] using hkind

/-! ### Loads, calls and casts -/

theorem loadValue {v : Value} {type : Text} (hv : v.isUnmarked)
    (h : TypePolicy.isFloat (if type.isEmpty then v.type else type) = false) :
    (Emit.loadValue v type).StaysIntegral fun w => w.isIntegral := by
  refine ite (fun hreg => pure ?_) fun _ => ite (fun _ => throw _) fun _ => reading fun e _ => ?_
  · have hkind : v.kind ≠ .number := by
      intro hnumber
      simp [Value.isRegister, hnumber] at hreg
    rw [Value.isIntegral_of_kind hkind]
    rwa [Value.isUnmarked, if_neg hkind] at hv
  · have htype := e.target.isFloat_typeOrWord.trans h
    refine (materialize v htype).bind fun w _ => (allocRegAs htype true).bind fun r hr => ?_
    exact (instr (e.target.isFloating_load r.name w htype)).bind fun _ _ => pure hr

theorem pushThroughTemp (v : Value) (type : Text) :
    (Emit.pushThroughTemp v type).StaysIntegral fun _ => True := by
  refine reading fun e _ => withTemp e.target.isFloat_wordType fun r => instrs fun i hi => ?_
  simp only [List.mem_cons, List.not_mem_nil, or_false] at hi
  rcases hi with rfl | rfl
  · exact e.target.isFloating_intLoad _ _ _
  · rfl

theorem pushLabel (label : Text) : (Emit.pushLabel label).StaysIntegral fun _ => True := by
  refine reading fun e _ => withTemp e.target.isFloat_wordType fun r => instrs ?_
  cases e.target <;> simp [Target.labelLoad, Target.is64Bit, Instr.push, Mnemonic.isFloating]

theorem pushArg {arg : Value} (h : arg.isIntegral) :
    (Emit.pushArg arg).StaysIntegral fun _ => True := by
  obtain ⟨-, hfloat⟩ := Value.isIntegral_iff.mp h
  refine reading fun e _ => ite (fun hc => ?_) fun _ => ite (fun _ => instrs ?_) fun _ => ite ?_ ?_
  · rw [hfloat] at hc
    cases hc.2
  · intro i hi
    rcases List.mem_append.mp hi with hi | hi
    · exact e.target.isFloating_widening arg i hi
    · rw [List.mem_singleton.mp hi]
      rfl
  · exact fun _ => (stringLabel _).bind fun label _ => pushLabel label
  · intro _
    exact (materialize arg (e.target.isFloat_typeOrWord.trans hfloat)).bind fun w _ =>
      pushThroughTemp w _

theorem pushArgs (callee : Text) (index : Nat) {args : List Value} (h : ∀ v ∈ args, v.isIntegral) :
    (Emit.pushArgs callee index args).StaysIntegral fun _ => True := by
  induction args generalizing index with
  | nil => exact pure trivial
  | cons arg rest ih =>
    have hrest := ih (index + 1) fun v hv => h v (List.mem_cons_of_mem arg hv)
    exact hrest.bind fun _ _ => (pushArg (h arg List.mem_cons_self)).rewording _

theorem callAs (name : Text) {args : List Value} {type : Text} (hargs : ∀ v ∈ args, v.isIntegral)
    (h : TypePolicy.isFloat type = false) :
    (Emit.callAs name args type).StaysIntegral fun v => v.isIntegral := by
  refine reading fun e _ => (pushArgs name 0 hargs).bind fun _ _ => ?_
  refine (instrs (e.target.isFloating_callThenDrop name _)).bind fun _ _ => ?_
  refine (allocRegAs h true).bind fun r hr => (instr ?_).bind fun _ _ => pure hr
  rw [Target.resultMove, if_neg (by simp [h])]
  rfl

theorem call (name : Text) {args : List Value} (hargs : ∀ v ∈ args, v.isIntegral) :
    (Emit.call name args).StaysIntegral fun v => v.isIntegral :=
  reading fun e _ => callAs name hargs e.target.isFloat_wordType

theorem cast {v : Value} {type : Text} (hv : v.isFloat = false)
    (h : TypePolicy.isFloat type = false) :
    (Emit.cast v type).StaysIntegral fun w => w.isIntegral := by
  refine ite (fun _ => throw _) fun _ => (checkType type).bind fun _ _ => reading fun e _ => ?_
  have hsource : TypePolicy.regClass (v.withType (e.target.typeOrWord v.type)).type = .int := by
    rw [TypePolicy.regClass,
      if_neg (by simpa [Value.withType, Target.isFloat_typeOrWord, Value.isFloat] using hv)]
  have hresult : TypePolicy.regClass type = .int := by
    rw [TypePolicy.regClass, if_neg (by simp [h])]
  dsimp only
  rw [hsource, hresult]
  refine reading fun e' _ => (allocRegAs h true).bind fun r hr => ?_
  exact (instr (e'.target.isFloating_intToInt _ _ _)).bind fun _ _ => pure hr

/-! ### Printing and the end of the process -/

theorem needPrintInt : Emit.needPrintInt.StaysIntegral fun _ => True := by
  refine reading fun e _ => ite (fun _ => pure trivial) fun _ =>
    (moves fun k hk => ?_).bind fun _ _ => ?_
  · simp only [List.mem_cons, List.not_mem_nil, or_false] at hk
    rcases hk with rfl | rfl | rfl | rfl | rfl <;> rfl
  · exact (move rfl).bind fun _ _ => move rfl

theorem printString (t : Text) : (Emit.printString t).StaysIntegral fun _ => True := by
  refine reading fun e _ => (move rfl).bind fun _ _ =>
    (addGenerated _ _ rfl).bind fun _ _ => instrs ?_
  intro i hi
  rcases List.mem_append.mp hi with hi | hi
  · rcases List.mem_append.mp hi with hi | hi
    · obtain ⟨r, -, rfl⟩ := List.mem_map.mp hi
      rfl
    · exact e.target.isFloating_writeCall _ _ i hi
  · obtain ⟨r, -, rfl⟩ := List.mem_map.mp hi
    rfl

theorem printInt (v : Value) : (Emit.printInt v).StaysIntegral fun _ => True := by
  refine needPrintInt.bind fun _ _ => reading fun e _ => ?_
  have hcall := instrs (e.target.isFloating_callThenDrop "print_int" 1)
  refine ite (fun _ => (instrs fun i hi => ?_).bind fun _ _ => hcall) fun _ => ?_
  · rcases List.mem_append.mp hi with hi | hi
    · exact e.target.isFloating_widening v i hi
    · rw [List.mem_singleton.mp hi]
      rfl
  · exact (pushThroughTemp v _).bind fun _ _ => hcall

theorem print {v : Value} (h : v.isFloat = false) : (Emit.print v).StaysIntegral fun _ => True := by
  refine ite (fun _ => printString v.text) fun _ => ite (fun hfloat => ?_) fun _ => printInt v
  rw [h] at hfloat
  cases hfloat

theorem exit (code : Int) : (Emit.exit code).StaysIntegral fun _ => True :=
  reading fun e _ => instrs (e.target.isFloating_exitCall code)

theorem block (code : Text) : (Emit.block code).StaysIntegral fun _ => True := by
  refine moves fun k hk => ?_
  obtain ⟨t, -, rfl⟩ := List.mem_map.mp hk
  rfl

/-! ### Functions -/

theorem openFrame (f : FunctionRef) : (Emit.openFrame f).StaysIntegral fun g =>
    (∀ p ∈ g.params, TypePolicy.isFloat p.type = false) ∧ ∀ q ∈ g.cached, q.2.isIntegral := by
  refine reading fun e he => ?_
  split
  next g hg => exact ite (fun _ => pure ⟨he.params g hg, he.cached g hg⟩) fun _ => throw _
  next => exact throw _

theorem declareLocal (f : FunctionRef) (name : Text) {type : Text}
    (h : TypePolicy.isFloat type = false) :
    (Emit.declareLocal f name type).StaysIntegral fun v => v.isIntegral := by
  refine (openFrame f).bind fun g _ => (checkType type).bind fun _ _ => reading fun e _ => ?_
  have hslot : (g.nextSlot e.target name type).isIntegral := by
    rw [Value.isIntegral_of_kind (by simp [Frame.nextSlot, Value.ofSlot])]
    exact congrArg (!·) h
  have hadd : (do Emit.move (.addLocal name type); return g.nextSlot e.target name type :
      Emit Value).StaysIntegral fun v => v.isIntegral := (move rfl).bind fun _ _ => pure hslot
  exact ite (fun _ => (throw (p := fun _ => True) _).bind fun _ _ => hadd) fun _ => hadd

theorem param (f : FunctionRef) (name : Text) :
    (Emit.param f name).StaysIntegral fun v => v.isIntegral := by
  refine (openFrame f).bind fun g hg => ?_
  split
  next r hr => exact pure (hg.2 (name, r) (Bindings.mem_of_get? hr))
  next =>
    split
    next => exact throw _
    next p index hfind =>
      have hp : p ∈ g.params := List.fst_mem_of_mem_zipIdx (List.mem_of_find?_eq_some hfind)
      refine reading fun e _ => (allocRegAs (hg.1 p hp) false).bind fun r hr => ?_
      refine (instr (e.target.isFloating_fetch r.name (hg.1 p hp) _)).bind fun _ _ => ?_
      have hcache : (Move.cache name r).isFloating = false := by simp [Move.isFloating, hr]
      exact (move hcache).bind fun _ _ => pure hr

theorem returnValue (f : FunctionRef) {v : Value} (h : v.isFloat = false) :
    (Emit.returnValue f v).StaysIntegral fun _ => True := by
  refine (openFrame f).bind fun g _ => reading fun e _ => ite (fun hfloat => ?_) fun _ => ?_
  · rw [h] at hfloat
    cases hfloat
  · exact ite (fun _ => throw _) fun _ => instr (e.target.isFloating_intReturn v)

theorem beginFunction (name : Text) {params : List Param}
    (h : ∀ p ∈ params, TypePolicy.isFloat p.type = false) :
    (Emit.beginFunction name params).StaysIntegral fun _ => True := by
  have hclaim : (claimFunction name params).StaysIntegral fun _ => True := by
    refine (claimSymbol name).bind fun _ _ => ?_
    clear h
    induction params with
    | nil => exact pure trivial
    | cons p rest ih => exact ((checkType p.type).rewording _).bind fun _ _ => ih
  have henter : (enterFunction name params).StaysIntegral fun _ => True := by
    refine reading fun e _ => (moves fun k hk => ?_).bind fun _ _ => pure trivial
    simp only [List.mem_cons, List.not_mem_nil, or_false] at hk
    rcases hk with rfl | rfl
    · exact List.any_eq_false.mpr fun p hp => by simp [h p hp]
    · rfl
  intro e he
  rw [beginFunction_run]
  split
  next => exact throw _ e he
  next => exact (hclaim.bind fun _ _ => henter) e he

theorem endFunction (f : FunctionRef) : (Emit.endFunction f).StaysIntegral fun _ => True :=
  (openFrame f).bind fun _ _ => (move rfl).bind fun _ _ => move rfl

end StaysIntegral

/-! ## Floating literals -/

/-- A floating constant is among what is stored. -/
def StoresFloat (ms : List Move) : Prop := ∃ d, Move.store d ∈ ms ∧ d.content.isFloating

theorem StoresFloat.mono {ms ns : List Move} (h : StoresFloat ms) (hsub : ms ⊆ ns) :
    StoresFloat ns := by
  obtain ⟨d, hd, hfloat⟩ := h
  exact ⟨d, hsub hd, hfloat⟩

theorem StoresFloat.between {ms : List Move} (h : StoresFloat ms) (before after : List Move) :
    StoresFloat (before ++ (ms ++ after)) :=
  h.mono fun _ hm => List.mem_append_right before (List.mem_append_left after hm)

theorem StoresFloat.not_integral {e : Engine} {ms : List Move} (h : StoresFloat ms) :
    ¬ (e.makeAll ms).Integral := by
  intro hint
  obtain ⟨d, hd, hfloat⟩ := h
  rw [hint.data d (Engine.mem_data_makeAll.mpr (.inr hd))] at hfloat
  cases hfloat

theorem hasAny_floatSpelling (t : Text) : hasAny ".eE" (floatSpelling t) = true := by
  rw [floatSpelling]
  split
  next h => exact h
  next => exact List.any_eq_true.mpr ⟨46, List.mem_append_right t (by decide), by decide⟩

section

variable {e : Engine} {ms : List Move} {v a : Value} {u : Unit} {type name : Text}

theorem materialize_storesFloat (hkind : v.kind = .number) (hfloat : TypePolicy.isFloat type = true)
    (h : (materialize v type).Grants e a ms) : StoresFloat ms := by
  rw [Grants, materialize_run, if_pos ⟨hkind, hfloat⟩] at h
  cases h
  exact ⟨⟨generatedName "float_lit" e.literals, e.target.directive type,
    .number (floatSpelling v.text)⟩, by simp, hasAny_floatSpelling v.text⟩

theorem not_integral_declareConst (hkind : v.kind = .number) (hfloat : v.isFloat = true)
    (h : (declareConst name v []).Grants e a ms) : ¬ (e.makeAll ms).Integral := by
  have htype : e.target.constantType v [] = ofString "float" := by
    show literalType e.target v = _
    rw [literalType, if_neg (by simp [hkind]), if_pos hfloat]
  have hdata := (declareConst_stores h).data
  rw [htype, literalContent, if_neg (by simp [hkind]), if_pos (by decide)] at hdata
  intro hint
  have hlast := hint.data _ (hdata ▸ List.mem_append_right _ List.mem_cons_self)
  rw [Content.isFloating, hasAny_floatSpelling] at hlast
  cases hlast

theorem loadValue_storesFloat (hkind : v.kind = .number) (hfloat : v.isFloat = true)
    (h : (loadValue v []).Grants e a ms) : StoresFloat ms := by
  rw [loadValue, if_neg (by simp [Value.isRegister, hkind]), if_neg (by simp [hkind]),
    grants_read_bind] at h
  obtain ⟨w, ms₁, hw, ms₂, -, rfl⟩ := grants_bind.mp h
  have htype : TypePolicy.isFloat (e.target.typeOrWord v.type) = true :=
    e.target.isFloat_typeOrWord.trans hfloat
  exact (materialize_storesFloat hkind htype hw).mono (List.subset_append_left _ _)

theorem pushArg_storesFloat (hkind : v.kind = .number) (hfloat : v.isFloat = true)
    (h : (pushArg v).Grants e u ms) : StoresFloat ms := by
  have hreg : v.isRegister = false := by simp [Value.isRegister, hkind]
  rw [pushArg, grants_read_bind, if_neg (by simp [hreg]), if_neg (by simp [hreg]),
    if_neg (by simp [hkind])] at h
  obtain ⟨w, ms₁, hw, ms₂, -, rfl⟩ := grants_bind.mp h
  have htype : TypePolicy.isFloat (e.target.typeOrWord v.type) = true :=
    e.target.isFloat_typeOrWord.trans hfloat
  exact (materialize_storesFloat hkind htype hw).mono (List.subset_append_left _ _)

theorem pushArgs_storesFloat {callee : Text} {index : Nat} {args : List Value} (hmem : v ∈ args)
    (hkind : v.kind = .number) (hfloat : v.isFloat = true)
    (h : (pushArgs callee index args).Grants e u ms) : StoresFloat ms := by
  induction args generalizing index ms e u with
  | nil => cases hmem
  | cons arg rest ih =>
    obtain ⟨_, ms₁, hrest, ms₂, harg, rfl⟩ := grants_bind.mp h
    rcases List.mem_cons.mp hmem with rfl | hmem
    · rw [grants_rewording] at harg
      exact (pushArg_storesFloat hkind hfloat harg).mono (List.subset_append_right _ _)
    · exact (ih hmem hrest).mono (List.subset_append_left _ _)

theorem callAs_storesFloat {args : List Value} (hmem : v ∈ args) (hkind : v.kind = .number)
    (hfloat : v.isFloat = true) (h : (callAs name args type).Grants e a ms) : StoresFloat ms := by
  rw [callAs, grants_read_bind] at h
  obtain ⟨_, ms₁, hargs, ms₂, -, rfl⟩ := grants_bind.mp h
  exact (pushArgs_storesFloat hmem hkind hfloat hargs).mono (List.subset_append_left _ _)

theorem floatToInt_storesFloat (hkind : v.kind = .number) (hfloat : v.isFloat = true)
    (h : (floatToInt v type).Grants e a ms) : StoresFloat ms := by
  rw [floatToInt, grants_read_bind] at h
  obtain ⟨r, ms₁, -, ms₂, hrest, rfl⟩ := grants_bind.mp h
  rw [if_neg (by simp [Value.isRegister, hkind])] at hrest
  obtain ⟨w, ms₃, hw, ms₄, -, rfl⟩ := grants_bind.mp hrest
  exact (materialize_storesFloat hkind hfloat hw).between _ _

theorem floatToFloat_storesFloat (hkind : v.kind = .number) (hfloat : v.isFloat = true)
    (h : (floatToFloat v type).Grants e a ms) : StoresFloat ms := by
  rw [floatToFloat, grants_read_bind] at h
  obtain ⟨r, ms₁, -, ms₂, hrest, rfl⟩ := grants_bind.mp h
  obtain ⟨w, ms₃, hw, ms₄, -, rfl⟩ := grants_bind.mp hrest
  exact (materialize_storesFloat hkind hfloat hw).between _ _

theorem cast_storesFloat (hkind : v.kind = .number) (hfloat : v.isFloat = true)
    (h : (cast v type).Grants e a ms) : StoresFloat ms := by
  rw [cast, if_neg (by simp [hkind])] at h
  obtain ⟨_, ms₁, -, ms₂, hrest, rfl⟩ := grants_bind.mp h
  rw [grants_read_bind] at hrest
  generalize hw : v.withType ((e.makeAll ms₁).target.typeOrWord v.type) = w at hrest
  have hnumber : w.kind = .number := hw ▸ hkind
  have hclass : w.isFloat = true := by
    rw [← hw]
    exact ((e.makeAll ms₁).target.isFloat_typeOrWord).trans hfloat
  have hsource : TypePolicy.regClass w.type = .float := by
    rw [TypePolicy.regClass]
    exact if_pos hclass
  dsimp only at hrest
  rw [hsource] at hrest
  refine StoresFloat.mono ?_ (List.subset_append_right _ _)
  cases hresult : TypePolicy.regClass type with
  | int =>
    rw [hresult] at hrest
    exact floatToInt_storesFloat hnumber hclass hrest
  | float =>
    rw [hresult] at hrest
    exact floatToFloat_storesFloat hnumber hclass hrest

theorem print_storesFloat (hkind : v.kind = .number) (hfloat : v.isFloat = true)
    (h : (print v).Grants e u ms) : StoresFloat ms := by
  rw [print, if_neg (by simp [hkind]), if_pos hfloat] at h
  obtain ⟨_, ms₁, -, ms₂, hrest, rfl⟩ := grants_bind.mp h
  rw [grants_read_bind] at hrest
  obtain ⟨w, ms₃, hw, ms₄, -, rfl⟩ := grants_bind.mp hrest
  have htype : TypePolicy.isFloat v.floatType = true := by rwa [Value.floatType, if_pos hfloat]
  exact (materialize_storesFloat hkind htype hw).between _ _

theorem returnValue_storesFloat {f : FunctionRef} (hkind : v.kind = .number)
    (hfloat : v.isFloat = true) (h : (returnValue f v).Grants e u ms) : StoresFloat ms := by
  obtain ⟨g, ms₁, -, ms₂, hrest, rfl⟩ := grants_bind.mp h
  rw [grants_read_bind, if_pos hfloat] at hrest
  obtain ⟨w, ms₃, hw, ms₄, -, rfl⟩ := grants_bind.mp hrest
  exact (materialize_storesFloat hkind hfloat hw).between _ _

end

end Emit

end Assembly
