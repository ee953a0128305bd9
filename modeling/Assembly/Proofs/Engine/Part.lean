import Assembly.Proofs.Engine.Grant
import Assembly.Proofs.Engine.Reference

/-!
# What operations are made of

The operations of the engine are put together from a few parts: instructions, the checks of
the policy, registers handed out and taken back, generated constants, routines of the
runtime, and the storage that a request declares.  `Part q known m` says that `m` is such a
composition.  It is derived once for every operation, and what holds of the parts and passes
through the ways of putting them together holds of every operation.

The names in `known` are those that instructions may refer to.  They come with the request,
or they stand for something that is in the program by then; a generated constant and a
routine make their names known to the operations after them.

An operation on a function looks at the open function first, and goes on with a part.  The
operation that begins a function and the one that declares a local are the only ones that do
more.
-/

namespace Assembly

/-- Whether a failure comes from a rule that strict engines alone have. -/
def EmitError.isPolicy (x : EmitError) : Bool :=
  match x.root with
  | unknownType _ | duplicateSymbol _ | duplicateLocal _ _ | poolExhausted _ _ => true
  | _ => false

/-- Whether the cause lies in the operation itself: not in a function that is open or ended,
and not with the caller. -/
def EmitError.isOrdinary (x : EmitError) : Bool :=
  match x.root with
  | functionOpen _ _ | functionEnded _ | raised _ => false
  | _ => true

namespace Request

/-- Whether a request neither begins nor ends a function. -/
def within : Request → Bool
  | beginFunction _ _ | endFunction _ => false
  | _ => true

/-- Whether, moreover, the request does not ask for the program. -/
def isInner : Request → Bool
  | finalize => false
  | q => q.within

/-- Whether, moreover, the request is not about a function. -/
def isPart : Request → Bool
  | declareLocal _ _ _ | param _ _ | returnValue _ _ => false
  | q => q.isInner

theorem within_of_isInner {q : Request} (h : q.isInner) : q.within := by
  cases q <;> first | rfl | cases h

theorem isInner_of_isPart {q : Request} (h : q.isPart) : q.isInner := by
  cases q <;> first | rfl | cases h

/-- The symbol that a request declares. -/
def declares : Request → Option Text
  | declareGlobal name _ | declareConst name _ _ | beginFunction name _ => some name
  | _ => none

/-- The function that a request calls by its name. -/
def callee : Request → Option Text
  | call name _ | callAs name _ _ => some name
  | _ => none

/-- The names that the operands of a request bring into the code.  A text is stored, and its
label is referred to, where it is printed or passed. -/
def operandNames : Request → List Text
  | load v _ | cast v _ | printFloat v | returnValue _ v => v.references
  | print v => if v.kind = .string then [] else v.references
  | call _ args | callAs _ args _ =>
    (args.filter fun v => v.kind ≠ .string).flatMap Value.references
  | _ => []

/-- The names that code may refer to without being defined by the engine. -/
def brought (q : Request) : List Text := addressRegs ++ q.operandNames

end Request

namespace Move

/-- Whether the move neither begins nor ends a function. -/
def inner : Move → Bool
  | enter _ _ | leave => false
  | _ => true

theorem inner_instrs (is : List Instr) : ∀ m ∈ is.map Move.instr, m.inner := by
  intro m hm
  obtain ⟨i, -, rfl⟩ := List.mem_map.mp hm
  rfl

/-- Whether a move neither warns, nor adds an instruction, a symbol or storage. -/
def plain : Move → Bool
  | raw _ | resetRegs | cache _ _ | log .debug _ _ => true
  | _ => false

/-- Storage under a name. -/
def keeps (name : Text) : Move → Bool
  | reserve r => r.name = name
  | store d => d.name = name
  | _ => false

end Move

namespace Emit

variable {α β : Type}

instance : LawfulMonad Emit := by
  refine LawfulMonad.mk' Emit (fun m => ?_) (fun _ _ => rfl) (fun m f g => ?_)
  · funext e
    show (m >>= pure) e = m e
    rw [bind_apply]
    cases h : (m e).1 with
    | error x => exact Prod.ext h.symm rfl
    | ok a => exact Prod.ext h.symm (List.append_nil _)
  · funext e
    simp only [bind_apply]
    cases (m e).1 with
    | error x => rfl
    | ok a =>
      dsimp only
      rw [Engine.makeAll_append]
      cases (f a (e.makeAll (m e).2)).1 with
      | error x => rfl
      | ok b => simp only [List.append_assoc]

theorem map_apply (k : α → β) (m : Emit α) (e : Engine) : (k <$> m) e = ((m e).1.map k, (m e).2) := by
  show (m >>= fun a => pure (k a)) e = _
  rw [bind_apply]
  cases (m e).1 with
  | error x => rfl
  | ok a => exact Prod.ext rfl (List.append_nil _)

/-! ## What the smallest operations do -/

theorem checkType_run (type : Text) (e : Engine) : checkType type e =
    if e.target.knows type then (.ok (), [])
    else if e.strict then (.error (.unknownType type), [])
    else (.ok (), [.log .warn "unknown type, using word size"
      [("type", type), ("size", Text.ofNat e.target.wordSize)]]) := by
  show (if _ then _ else _ : Emit Unit) e = _
  split
  · rfl
  · show (if _ then _ else _ : Emit Unit) e = _
    split <;> rfl

theorem claimSymbol_run (name : Text) (e : Engine) : claimSymbol name e =
    if e.defines name then
      if e.strict then (.error (.duplicateSymbol name), [])
      else (.ok (), [.log .warn "duplicate symbol" [("name", name)], .define name])
    else (.ok (), [.define name]) := by
  show (if _ then _ else _ : Emit Unit) e = _
  split
  · show (if _ then _ else _ : Emit Unit) e = _
    split <;> rfl
  · rfl

theorem allocRegAs_run (type : Text) (temp : Bool) (e : Engine) : allocRegAs type temp e =
    match e.regs.alloc? (TypePolicy.regClass type) with
    | none => (.error (.poolExhausted (TypePolicy.regClass type)
        (e.regs.pool (TypePolicy.regClass type)).length), [])
    | some (a, _) => (.ok (.ofRegister a.reg type temp),
        Move.take (TypePolicy.regClass type) ::
          (if a.fresh then [] else [.log .warn "register pool exhausted, reusing first entry"
            [("class", (TypePolicy.regClass type).text), ("reg", a.reg)]]) ++
          [.log .debug "alloc" [("reg", a.reg), ("type", type), ("temp", Text.ofBool temp)]]) := by
  show (match e.regs.alloc? (TypePolicy.regClass type) with
    | none => _
    | some (a, _) => _ : Emit Value) e = _
  cases e.regs.alloc? (TypePolicy.regClass type) with
  | none => rfl
  | some ag =>
    obtain ⟨⟨r, fresh⟩, g⟩ := ag
    cases fresh <;> rfl

theorem release_run (v : Value) (e : Engine) : release v e =
    (.ok (), if v.isRegister ∧ v.temp ∧ e.regs.uses (TypePolicy.regClass v.type) v.name then
      [.give (TypePolicy.regClass v.type) v.name, .log .debug "release" [("reg", v.name)]]
    else []) := by
  show (if _ ∧ _ ∧ _ then _ else _ : Emit Unit) e = _
  split <;> rfl

/-- A routine and its storage. -/
def need : Builtin → Emit Unit
  | .printInt => needPrintInt
  | .printFloat => needPrintFloat

/-- The moves that bring a routine into the program. -/
def joining : Builtin → List Move
  | .printInt => [.reserve ⟨"print_buffer", 32⟩, .store ⟨"newline", .db, .number "10"⟩,
      .define "print_buffer", .define "newline", .define "print_int", .link .printInt,
      .log .debug "injected builtin" [("name", "print_int")]]
  | .printFloat => [.reserve ⟨"float_buf", 64⟩, .define "float_buf", .define "print_float",
      .link .printFloat, .log .debug "injected builtin" [("name", "print_float")]]

theorem need_printInt (e : Engine) :
    need .printInt e = (.ok (), if e.printIntAdded then [] else joining .printInt) := by
  show (if e.printIntAdded then _ else _ : Emit Unit) e = _
  split <;> rfl

theorem need_printFloat (e : Engine) :
    need .printFloat e = (.ok (), if e.printFloatAdded then [] else
      (if e.printIntAdded then [] else joining .printInt) ++ joining .printFloat) := by
  show (if e.printFloatAdded then _ else _ : Emit Unit) e = _
  by_cases h : e.printFloatAdded = true
  · rw [if_pos h, if_pos h]
    rfl
  · rw [if_neg h, if_neg h, bind_apply]
    have hint := need_printInt e
    rw [need] at hint
    rw [hint]
    rfl

/-- Stores a generated constant that is numbered among the literals, and returns its name. -/
def addLiteral (stem : Text) (directive : Target → Directive) (content : Content) : Emit Text := do
  let e ← read
  let name := generatedName stem e.literals
  move .countLiteral
  addGenerated name (directive e.target) content
  return name

theorem addLiteral_run (stem : Text) (directive : Target → Directive) (content : Content)
    (e : Engine) : addLiteral stem directive content e =
    (.ok (generatedName stem e.literals), [Move.countLiteral,
      Move.define (generatedName stem e.literals),
      Move.store ⟨generatedName stem e.literals, directive e.target, content⟩]) := rfl

theorem stringLabel_eq (t : Text) : stringLabel t = addLiteral "str" (fun _ => .db) (.bytes t 0) := rfl

theorem materialize_eq (v : Value) (type : Text) : materialize v type =
    if v.kind ≠ .number ∨ ¬ TypePolicy.isFloat type then pure v
    else do
      let name ← addLiteral "float_lit" (·.directive type) (.number (floatSpelling v.text))
      return .ofConstant name type := by
  simp only [addLiteral, bind_assoc, pure_bind]
  rfl

theorem materialize_run (v : Value) (type : Text) (e : Engine) : materialize v type e =
    if v.kind = .number ∧ TypePolicy.isFloat type = true then
      (.ok (.ofConstant (generatedName "float_lit" e.literals) type), [Move.countLiteral,
        Move.define (generatedName "float_lit" e.literals),
        Move.store ⟨generatedName "float_lit" e.literals, e.target.directive type,
          .number (floatSpelling v.text)⟩])
    else (.ok v, []) := by
  rw [materialize_eq]
  by_cases h : v.kind = .number ∧ TypePolicy.isFloat type = true
  · rw [if_pos h, if_neg (by simp [h])]
    rfl
  · rw [if_neg h, if_pos (Decidable.not_and_iff_or_not.mp h)]
    rfl

/-- The code that writes a stored text.  The registers that this overwrites are kept if they
are in use. -/
def writeCode (e : Engine) (label : Text) (length : Nat) : List Instr :=
  let live := e.target.writeClobbers.filter (e.regs.uses .int)
  live.map Instr.push ++ e.target.writeCall label length ++ live.reverse.map Instr.pop

theorem printString_run (s : Text) (e : Engine) : printString s e = (.ok (),
    [Move.countPrint, Move.define (generatedName "str_print" e.printBuffers),
      Move.store ⟨generatedName "str_print" e.printBuffers, .db, .bytes s 10⟩] ++
      (writeCode e (generatedName "str_print" e.printBuffers) (s.length + 1)).map Move.instr) := rfl

theorem references_writeCode (e : Engine) (label : Text) (length : Nat) :
    ∀ i ∈ writeCode e label length, i.references ⊆ [label] := by
  intro i hi
  rcases List.mem_append.mp hi with hi | hi
  · rcases List.mem_append.mp hi with hi | hi
    · obtain ⟨r, -, rfl⟩ := List.mem_map.mp hi
      exact List.nil_subset _
    · exact e.target.references_writeCall label length i hi
  · obtain ⟨r, -, rfl⟩ := List.mem_map.mp hi
    exact List.nil_subset _

/-! ## Parts -/

/-- The numbered constants. -/
def literalStems : List Text := ["float_lit", "str"]

inductive Part (q : Request) : List Text → {α : Type} → Emit α → Prop
  | pure {known : List Text} {α : Type} (a : α) : Part q known (Pure.pure a : Emit α)
  | throw {known : List Text} {α : Type} {x : EmitError} (h : x.isPolicy = false)
    (hx : x.isOrdinary) : Part q known (MonadExcept.throw x : Emit α)
  | bind {known : List Text} {α β : Type} {m : Emit α} {f : α → Emit β} (hm : Part q known m)
    (hf : ∀ a, Part q known (f a)) : Part q known (m >>= f)
  /-- The target alone decides how the operation goes on. -/
  | reading {known : List Text} {β : Type} {f : Engine → Emit β}
    (hsame : ∀ e e', e.target = e'.target → f e = f e') (hf : ∀ e, Part q known (f e)) :
    Part q known (MonadReader.read >>= f)
  | rewording {known : List Text} {α : Type} {m : Emit α} {words : EmitError → EmitError}
    (hwords : ∀ x, (words x).root = x.root) (hm : Part q known m) : Part q known (m.rewording words)
  | finishing {known : List Text} {α : Type} {m : Emit α} (hm : Part q known m) (v : Value) :
    Part q known (m.finishing (release v))
  | moves {known : List Text} {ms : List Move} (h : ∀ m ∈ ms, m.plain) : Part q known (moves ms)
  | leave {known : List Text} (h : q.within = false) : Part q known (move .leave)
  | instrs {known : List Text} (is : List Instr) (h : ∀ i ∈ is, i.references ⊆ known) :
    Part q known (instrs is)
  | calls {known : List Text} {name : Text} (h : q.callee = some name) :
    Part q known (instr ⟨.call, [.sym name]⟩)
  | checkType {known : List Text} (type : Text) : Part q known (checkType type)
  | claimSymbol {known : List Text} {name : Text} (h : q.declares = some name) :
    Part q known (claimSymbol name)
  | keeping {known : List Text} {name : Text} (h : q.declares = some name) {m : Move}
    (hm : m.keeps name) : Part q known (move m)
  | allocRegAs {known : List Text} (type : Text) (temp : Bool) : Part q known (allocRegAs type temp)
  | release {known : List Text} (v : Value) : Part q known (release v)
  | addLiteral {known : List Text} {β : Type} {stem : Text} (h : stem ∈ literalStems)
    (directive : Target → Directive) (content : Content) {f : Text → Emit β}
    (hf : ∀ name, Part q (name :: known) (f name)) :
    Part q known (addLiteral stem directive content >>= f)
  | printString {known : List Text} (s : Text) : Part q known (printString s)
  | need {known : List Text} {β : Type} (b : Builtin) {f : Unit → Emit β}
    (hf : Part q (b.label :: known) (f ())) : Part q known (need b >>= f)

namespace Part

variable {q : Request} {known : List Text}

theorem ite {c : Prop} [Decidable c] {m n : Emit α} (hm : Part q known m) (hn : Part q known n) :
    Part q known (if c then m else n) := by
  split
  · exact hm
  · exact hn

theorem map {m : Emit α} (f : α → β) (hm : Part q known m) : Part q known (f <$> m) :=
  hm.bind fun a => pure (f a)

theorem instr {i : Instr} (h : i.references ⊆ known) : Part q known (Emit.instr i) :=
  instrs [i] (by simpa using h)

theorem move {m : Move} (h : m.plain) : Part q known (Emit.move m) := moves (by simpa using h)

theorem withTemp (type : Text) {body : Value → Emit α} (hbody : ∀ r, Part q known (body r)) :
    Part q known (Emit.withTemp type body) :=
  (allocRegAs type true).bind fun r => (hbody r).finishing r

/-- A value that may become a constant. -/
theorem materialize {v : Value} (hv : v.references ⊆ known) (type : Text) {f : Value → Emit β}
    (hf : ∀ w known', known ⊆ known' → w.references ⊆ known' → Part q known' (f w)) :
    Part q known (Emit.materialize v type >>= f) := by
  rw [materialize_eq]
  split
  · exact hf v known (List.Subset.refl _) hv
  · rw [bind_assoc]
    refine addLiteral (by decide) _ _ fun name => ?_
    exact hf _ _ (List.subset_cons_self _ _) (List.cons_subset_cons _ (List.nil_subset _))

theorem loadValue {v : Value} (hv : v.references ⊆ known) (type : Text) :
    Part q known (Emit.loadValue v type) := by
  refine ite (pure v) (ite (throw rfl rfl) (reading (fun e e' h => by rw [h]) fun e => ?_))
  refine materialize hv _ fun w known' _ hw => (allocRegAs _ true).bind fun r => ?_
  exact (instr (by rwa [Target.references_load])).bind fun _ => pure r

theorem pushThroughTemp {v : Value} (hv : v.references ⊆ known) (type : Text) :
    Part q known (Emit.pushThroughTemp v type) := by
  refine reading (fun e e' h => by rw [h]) fun e => withTemp _ fun r => instrs _ ?_
  simpa using hv

theorem pushLabel {label : Text} (hl : label ∈ known) : Part q known (Emit.pushLabel label) := by
  refine reading (fun e e' h => by rw [h]) fun e => withTemp _ fun r => instrs _ ?_
  simpa using hl

/-! ## Calls -/

theorem pushArg {arg : Value} (hregs : addressRegs ⊆ known)
    (harg : arg.kind ≠ .string → arg.references ⊆ known) : Part q known (Emit.pushArg arg) := by
  refine reading (fun e e' h => by rw [h]) fun e => ite (instrs _ ?_) (ite (instrs _ ?_) ?_)
  · exact fun i hi => List.Subset.trans (e.target.references_floatPush arg i hi) hregs
  · intro i hi
    rcases List.mem_append.mp hi with hi | hi
    · rw [e.target.references_widening arg i hi]
      exact List.nil_subset _
    · rw [List.mem_singleton.mp hi]
      exact List.nil_subset _
  · by_cases hs : arg.kind = .string
    · rw [if_pos hs, stringLabel_eq]
      exact addLiteral (by decide) _ _ fun name => pushLabel List.mem_cons_self
    · rw [if_neg hs]
      exact materialize (harg hs) _ fun w known' _ hw => pushThroughTemp hw _

theorem pushArgs (hregs : addressRegs ⊆ known) (callee : Text) (index : Nat) {args : List Value}
    (hargs : ∀ v ∈ args, v.kind ≠ .string → v.references ⊆ known) :
    Part q known (Emit.pushArgs callee index args) := by
  induction args generalizing index with
  | nil => exact pure ()
  | cons arg rest ih =>
    have hrest := ih (index + 1) fun v hv => hargs v (List.mem_cons_of_mem arg hv)
    have harg := @pushArg q known arg hregs (hargs arg List.mem_cons_self)
    exact hrest.bind fun _ => harg.rewording fun _ => rfl

theorem callThenDrop {name : Text} (hname : q.callee = some name) (t : Target) (count : Nat) :
    Part q known (Emit.instrs (t.callThenDrop name count)) := by
  have hsplit : Emit.instrs (t.callThenDrop name count) = (Emit.instr ⟨.call, [.sym name]⟩ >>= fun _ =>
      Emit.instrs (if count = 0 then [] else [t.drop (count * t.wordSize)])) := by
    funext e
    rfl
  rw [hsplit]
  refine (calls hname).bind fun _ => instrs _ ?_
  split <;> simp

theorem callAs {name : Text} (hname : q.callee = some name) (hregs : addressRegs ⊆ known)
    {args : List Value} (hargs : ∀ v ∈ args, v.kind ≠ .string → v.references ⊆ known) (type : Text) :
    Part q known (Emit.callAs name args type) := by
  refine reading (fun e e' h => by rw [h]) fun e => (pushArgs hregs name 0 hargs).bind fun _ => ?_
  refine (callThenDrop hname _ _).bind fun _ => (allocRegAs type true).bind fun r => ?_
  exact (instr (by simp)).bind fun _ => pure r

/-! ## Casts -/

theorem intToInt {v : Value} (hv : v.references ⊆ known) (type : Text) :
    Part q known (Emit.intToInt v type) := by
  refine reading (fun e e' h => by rw [h]) fun e => (allocRegAs type true).bind fun r => ?_
  exact (instr (List.Subset.trans (e.target.references_intToInt _ _ _) hv)).bind fun _ => pure r

theorem intToFloat {v : Value} (hv : v.references ⊆ known) (type : Text) :
    Part q known (Emit.intToFloat v type) := by
  refine reading (fun e e' h => by rw [h]) fun e => (allocRegAs type true).bind fun r => ite ?_ ?_
  · refine (instrs _ fun i hi => ?_).bind fun _ => pure r
    rw [e.target.references_regToFloat _ _ _ i hi]
    exact List.nil_subset _
  · refine (withTemp _ fun tmp => instrs _ fun i hi => ?_).bind fun _ => pure r
    exact List.Subset.trans (e.target.references_operandToFloat _ _ _ _ i hi) hv

theorem floatToInt {v : Value} (hv : v.references ⊆ known) (type : Text) :
    Part q known (Emit.floatToInt v type) := by
  refine reading (fun e e' h => by rw [h]) fun e => (allocRegAs type true).bind fun r => ite ?_ ?_
  · exact (instr (by simp)).bind fun _ => pure r
  · refine materialize hv _ fun w known' _ hw => ?_
    refine (withTemp _ fun tmp => instrs _ ?_).bind fun _ => pure r
    simpa using hw

theorem floatToFloat {v : Value} (hv : v.references ⊆ known) (type : Text) :
    Part q known (Emit.floatToFloat v type) := by
  refine reading (fun e e' h => by rw [h]) fun e => (allocRegAs type true).bind fun r => ?_
  refine materialize hv _ fun w known' _ hw => ?_
  exact (instr (by simpa using hw)).bind fun _ => pure r

theorem cast {v : Value} (hv : v.references ⊆ known) (type : Text) :
    Part q known (Emit.cast v type) := by
  refine ite (throw rfl rfl) ((checkType type).bind fun _ => ?_)
  refine reading (fun e e' h => by rw [h]) fun e => ?_
  have hw : (v.withType (e.target.typeOrWord v.type)).references ⊆ known := hv
  dsimp only
  split
  · exact intToInt hw type
  · exact intToFloat hw type
  · exact floatToInt hw type
  · exact floatToFloat hw type

/-! ## Printing -/

theorem printFloat {v : Value} (hregs : addressRegs ⊆ known) (hv : v.references ⊆ known) :
    Part q known (Emit.printFloat v) := by
  refine need .printFloat (reading (fun e e' h => by rw [h]) fun e => ?_)
  refine materialize (List.subset_cons_of_subset _ hv) _ fun w known' hle hw => ?_
  have hlast : Part q known' (Emit.instrs [⟨.call, [.sym "print_float"]⟩, e.target.drop 8]) :=
    instrs _ (by simpa [Builtin.label] using hle List.mem_cons_self)
  have hpush : ∀ r, ∀ i ∈ e.target.singlePush r, i.references ⊆ known' := fun r i hi =>
    have hold : known ⊆ known' := List.Subset.trans (List.subset_cons_self _ _) hle
    List.Subset.trans (List.Subset.trans (e.target.references_singlePush r i hi) hregs) hold
  refine ite ((instrs _ (hpush w.name)).bind fun _ => hlast) ?_
  refine (withTemp _ fun tmp => instrs _ ?_).bind fun _ => hlast
  exact List.forall_mem_cons.mpr ⟨by rwa [Target.references_narrow], hpush tmp.name⟩

theorem printInt {v : Value} (hv : v.references ⊆ known) : Part q known (Emit.printInt v) := by
  refine need .printInt (reading (fun e e' h => by rw [h]) fun e => ?_)
  have hlast : Part q (Builtin.printInt.label :: known)
      (Emit.instrs (e.target.callThenDrop "print_int" 1)) :=
    instrs _ (by simp [Target.callThenDrop, Builtin.label])
  refine ite ((instrs _ fun i hi => ?_).bind fun _ => hlast) ?_
  · rcases List.mem_append.mp hi with hi | hi
    · rw [e.target.references_widening v i hi]
      exact List.nil_subset _
    · rw [List.mem_singleton.mp hi]
      exact List.nil_subset _
  · exact (pushThroughTemp (List.subset_cons_of_subset _ hv) _).bind fun _ => hlast

theorem print {v : Value} (hregs : addressRegs ⊆ known)
    (hv : v.kind ≠ .string → v.references ⊆ known) : Part q known (Emit.print v) := by
  by_cases hs : v.kind = .string
  · rw [Emit.print, if_pos hs]
    exact printString v.text
  · rw [Emit.print, if_neg hs]
    exact ite (printFloat hregs (hv hs)) (printInt (hv hs))

theorem exit (code : Int) : Part q known (Emit.exit code) := by
  refine reading (fun e e' h => by rw [h]) fun e => instrs _ fun i hi => ?_
  rw [e.target.references_exitCall code i hi]
  exact List.nil_subset _

theorem block (code : Text) : Part q known (Emit.block code) := by
  refine moves fun m hm => ?_
  obtain ⟨t, -, rfl⟩ := List.mem_map.mp hm
  rfl

/-! ## Declarations -/

theorem declareGlobal {name : Text} (hname : q.declares = some name) (type : Text) :
    Part q known (Emit.declareGlobal name type) := by
  refine (checkType type).bind fun _ => (claimSymbol hname).bind fun _ => ?_
  refine reading (fun e e' h => by rw [h]) fun e => ?_
  exact (keeping hname (by simp [Move.keeps])).bind fun _ => pure _

theorem declareConst {name : Text} (hname : q.declares = some name) (lit : Value) (type : Text) :
    Part q known (Emit.declareConst name lit type) := by
  refine ite (throw rfl rfl) (reading (fun e e' h => by rw [h]) fun e => ?_)
  refine (checkType _).bind fun _ => (claimSymbol hname).bind fun _ => ?_
  exact (keeping hname (by simp [Move.keeps])).bind fun _ => pure _

theorem checkParams (name : Text) (params : List Param) : Part q known
    (params.forM fun p => (Emit.checkType p.type).rewording (.parameter name p.name)) := by
  induction params with
  | nil => exact pure ()
  | cons p rest ih =>
    have hp : Part q known ((Emit.checkType p.type).rewording (.parameter name p.name)) :=
      (checkType p.type).rewording fun _ => rfl
    exact hp.bind fun _ => ih

end Part

/-! ## Operations on a function -/

/-- The operation looks up the open function and goes on with a part.  It does not ask for
the identity of the function again. -/
def OnFrame (q : Request) (known : List Text) (op : FunctionRef → Emit α) : Prop :=
  ∃ rest : Frame → Emit α, (∀ f, op f = openFrame f >>= rest) ∧ (∀ g, Part q known (rest g)) ∧
    ∀ g id, rest { g with id := id } = rest g

namespace OnFrame

variable {q : Request} {known : List Text}

theorem map {op : FunctionRef → Emit α} (h : OnFrame q known op) (k : α → β) :
    OnFrame q known fun f => k <$> op f := by
  obtain ⟨rest, hop, hpart, hid⟩ := h
  refine ⟨fun g => k <$> rest g, fun f => ?_, fun g => (hpart g).map k, fun g id => ?_⟩
  · show k <$> op f = _
    rw [hop, map_bind]
  · show k <$> rest _ = k <$> rest g
    rw [hid]

theorem param (hregs : addressRegs ⊆ known) (name : Text) :
    OnFrame q known fun f => Emit.param f name := by
  refine ⟨_, fun f => rfl, fun g => ?_, fun g id => rfl⟩
  split
  · exact .pure _
  · split
    · exact .throw rfl rfl
    · refine .reading (fun e e' h => by rw [h]) fun e => (Part.allocRegAs _ false).bind fun r => ?_
      refine (Part.instr (List.Subset.trans (e.target.references_fetch _ _ _) hregs)).bind fun _ => ?_
      exact (Part.move rfl).bind fun _ => .pure r

theorem returnValue {v : Value} (hv : v.references ⊆ known) :
    OnFrame q known fun f => Emit.returnValue f v := by
  refine ⟨_, fun f => rfl, fun g => ?_, fun g id => rfl⟩
  refine .reading (fun e e' h => by rw [h]) fun e => .ite ?_ (.ite (.throw rfl rfl) ?_)
  · exact .materialize hv _ fun w known' _ hw => .instr (by rwa [Target.references_floatReturn])
  · exact .instr (by rwa [Target.references_intReturn])

theorem endFunction (h : q.within = false) : OnFrame q known Emit.endFunction :=
  ⟨_, fun _ => rfl, fun _ => (Part.leave h).bind fun _ => Part.move rfl, fun _ _ => rfl⟩

end OnFrame

/-! ## Locals and functions -/

theorem openFrame_run (f : FunctionRef) (e : Engine) : openFrame f e =
    match e.current with
    | some g => if g.id = f.id then (.ok g, []) else (.error (.functionEnded f.name), [])
    | none => (.error (.functionEnded f.name), []) := by
  show (match e.current with
    | some g => if g.id = f.id then _ else _
    | none => _ : Emit Frame) e = _
  cases e.current with
  | none => rfl
  | some g =>
    dsimp only
    split <;> rfl

theorem openFrame_moves (f : FunctionRef) (e : Engine) : (openFrame f e).2 = [] := by
  rw [openFrame_run]
  split
  · split <;> rfl
  · rfl

/-- The declaration of a local up to the check of its name. -/
def frameFor (f : FunctionRef) (type : Text) : Emit Frame := openFrame f >>= fun g =>
  checkType type >>= fun _ => pure g

/-- The rest of it, which a permissive engine does without a look at the name. -/
def addLocal (g : Frame) (name type : Text) : Emit Value := do
  let e ← read
  if (g.locals.get? name).isSome ∧ e.strict then throw (.duplicateLocal name g.name)
  move (.addLocal name type)
  return g.nextSlot e.target name type

theorem declareLocal_eq (f : FunctionRef) (name type : Text) :
    declareLocal f name type = frameFor f type >>= fun g => addLocal g name type := by
  simp only [frameFor, bind_assoc, pure_bind]
  rfl

theorem addLocal_run (g : Frame) (name type : Text) (e : Engine) : addLocal g name type e =
    if (g.locals.get? name).isSome ∧ e.strict then (.error (.duplicateLocal name g.name), [])
    else (.ok (g.nextSlot e.target name type), [.addLocal name type]) := by
  show (if _ ∧ _ then _ else _ : Emit Value) e = _
  split <;> rfl

/-- What is checked before a function begins. -/
def claimFunction (name : Text) (params : List Param) : Emit Unit := claimSymbol name >>= fun _ =>
  params.forM fun p => (checkType p.type).rewording (.parameter name p.name)

def enterFunction (name : Text) (params : List Param) : Emit FunctionRef := do
  let id := (← read).nextId
  moves [.enter name params,
    .log .debug "begin function" [("name", name), ("params", Text.ofNat params.length)]]
  return ⟨id, name⟩

theorem enterFunction_run (name : Text) (params : List Param) (e : Engine) :
    enterFunction name params e = (.ok ⟨e.nextId, name⟩, [.enter name params,
      .log .debug "begin function" [("name", name), ("params", Text.ofNat params.length)]]) := rfl

theorem beginFunction_run (name : Text) (params : List Param) (e : Engine) :
    beginFunction name params e = match e.current with
    | some f => (.error (.functionOpen name f.name), [])
    | none => (claimFunction name params >>= fun _ => enterFunction name params) e := by
  rw [beginFunction, bind_apply]
  dsimp only [read, readThe, MonadReaderOf.read, Engine.makeAll_nil, List.nil_append]
  cases e.current with
  | some f => rfl
  | none =>
    rw [claimFunction, bind_assoc]
    rfl

theorem finalize_run (e : Engine) : finalize e = (.ok e.program, e.current.toList.map fun f =>
    .log .warn "finalize with an open function; its body is not emitted" [("func", f.name)]) := by
  rw [finalize, bind_apply]
  dsimp only [read, MonadReaderOf.read, readThe, Engine.makeAll_nil]
  cases h : e.current with
  | none => rfl
  | some f => rfl

end Emit

/-! ## Requests -/

/-- The function that was begun `n` functions later. -/
def FunctionRef.shift (n : Nat) (f : FunctionRef) : FunctionRef := { f with id := f.id + n }

namespace Request

open Emit

/-- The same request about the function that was begun `n` functions later. -/
def shift (n : Nat) : Request → Request
  | declareLocal f name type => declareLocal (f.shift n) name type
  | param f name => param (f.shift n) name
  | returnValue f v => returnValue (f.shift n) v
  | endFunction f => endFunction (f.shift n)
  | q => q

@[simp] theorem shift_zero (q : Request) : q.shift 0 = q := by cases q <;> rfl

/-- How the operation that a request asks for is put together. -/
inductive Shape (q : Request) : Prop
  | part (hshift : ∀ n, q.shift n = q) (h : Part q q.brought q.emit)
  | onFrame {op : FunctionRef → Emit Reply} (f : FunctionRef)
    (hshift : ∀ n, (q.shift n).emit = op (f.shift n)) (h : OnFrame q q.brought op)
  | beginFunction {name : Text} {params : List Param} (h : q = .beginFunction name params)
  | declareLocal {f : FunctionRef} {name type : Text} (h : q = .declareLocal f name type)
  | finalize (h : q = .finalize)

theorem addressRegs_subset_brought (q : Request) : addressRegs ⊆ q.brought :=
  List.subset_append_left _ _

theorem operandNames_subset_brought (q : Request) : q.operandNames ⊆ q.brought :=
  List.subset_append_right _ _

theorem args_subset_brought {q : Request} {args : List Value}
    (h : q.operandNames = (args.filter fun v => v.kind ≠ .string).flatMap Value.references) :
    ∀ v ∈ args, v.kind ≠ .string → v.references ⊆ q.brought := by
  intro v hv hs l hl
  refine q.operandNames_subset_brought ?_
  rw [h]
  exact List.mem_flatMap.mpr ⟨v, List.mem_filter.mpr ⟨hv, by simpa using hs⟩, hl⟩

theorem part_of_isPart {q : Request} (h : q.isPart) : Part q q.brought q.emit := by
  have hregs := q.addressRegs_subset_brought
  have hops := q.operandNames_subset_brought
  cases q with
  | declareGlobal name type => exact (Part.declareGlobal rfl type).map _
  | declareConst name lit type => exact (Part.declareConst rfl lit type).map _
  | alloc type => exact (Part.allocRegAs type true).map _
  | release v => exact (Part.release v).map _
  | load v type => exact (Part.loadValue hops type).map _
  | call name args =>
    have hcall : ∀ type, Part (call name args) (call name args).brought (Emit.callAs name args type) :=
      fun type => Part.callAs rfl hregs (args_subset_brought rfl) type
    exact (Part.reading (fun e e' h => by rw [h]) fun e => hcall _).map _
  | callAs name args type => exact (Part.callAs rfl hregs (args_subset_brought rfl) type).map _
  | cast v type => exact (Part.cast hops type).map _
  | print v =>
    have hv : v.kind ≠ .string → v.references ⊆ (print v).brought := by
      intro hs
      simpa [operandNames, hs] using hops
    exact (Part.print hregs hv).map _
  | printFloat v => exact (Part.printFloat hregs hops).map _
  | exit code => exact (Part.exit code).map _
  | rawBlock t => exact (Part.block t).map _
  | rawLine | rawInstr | resetRegs => exact (Part.move rfl).map _
  | beginFunction | declareLocal | param | returnValue | endFunction | finalize => cases h

theorem shape (q : Request) : q.Shape := by
  have hregs := q.addressRegs_subset_brought
  have hops := q.operandNames_subset_brought
  cases q with
  | beginFunction name params => exact .beginFunction rfl
  | declareLocal f name type => exact .declareLocal rfl
  | param f name => exact .onFrame f (fun _ => rfl) ((OnFrame.param hregs name).map _)
  | returnValue f v => exact .onFrame f (fun _ => rfl) ((OnFrame.returnValue hops).map _)
  | endFunction f => exact .onFrame f (fun _ => rfl) ((OnFrame.endFunction rfl).map _)
  | finalize => exact .finalize rfl
  | _ => exact .part (fun _ => rfl) (part_of_isPart rfl)

/-! ## Operations that requests ask for -/

variable {α : Type} {q : Request} {m : Emit α}

/-- The request asks for the operation, and the reply tells its answer. -/
def AsksFor (q : Request) (m : Emit α) : Prop :=
  ∃ tell : α → Reply, Function.Injective tell ∧ q.emit = tell <$> m

theorem asksFor_value {m : Emit Value} (h : q.emit = Reply.value <$> m) : q.AsksFor m :=
  ⟨_, fun _ _ => Reply.value.inj, h⟩

theorem asksFor_unit {m : Emit Unit} (h : q.emit = Reply.ofUnit <$> m) : q.AsksFor m :=
  ⟨_, fun _ _ _ => rfl, h⟩

namespace AsksFor

theorem moves (h : q.AsksFor m) (e : Engine) : (q.emit e).2 = (m e).2 := by
  obtain ⟨tell, -, hemit⟩ := h
  rw [hemit, Emit.map_apply]

/-- The same reply and the same moves come from the same answer. -/
theorem congr (h : q.AsksFor m) {e e' : Engine} (hsame : q.emit e = q.emit e') : m e = m e' := by
  obtain ⟨tell, htell, hemit⟩ := h
  rw [hemit, Emit.map_apply, Emit.map_apply, Prod.mk.injEq] at hsame
  refine Prod.ext ?_ hsame.2
  generalize (m e).1 = a at hsame ⊢
  generalize (m e').1 = b at hsame ⊢
  cases a with
  | ok a =>
    cases b with
    | ok b => rw [htell (Except.ok.inj hsame.1)]
    | error y => cases hsame.1
  | error x =>
    cases b with
    | ok b => cases hsame.1
    | error y => rw [Except.error.inj hsame.1]

end AsksFor

end Request

end Assembly
