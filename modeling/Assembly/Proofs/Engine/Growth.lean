import Assembly.Proofs.Engine.Confined

/-!
# What an engine has gathered stays

Every move adds to the segments, symbols and counters of an engine, and takes nothing away:
`grown_makeAll`.  The code of the open function is put together when it ends.  Until then its
lines stay in their order, with saves in front of them and new lines behind, as long as the moves
stay inside of it: `extends_makeAll`.
-/

namespace Assembly

/-- Everything in a function is still there. -/
structure Frame.Extends (f g : Frame) : Prop where
  id : g.id = f.id
  name : g.name = f.name
  params : g.params = f.params
  saved : f.saved <+: g.saved
  lines : f.lines <:+: g.lines
  localSize : f.localSize ≤ g.localSize

namespace Frame.Extends

variable {f g h : Frame}

theorem refl (f : Frame) : f.Extends f :=
  ⟨rfl, rfl, rfl, List.prefix_rfl, List.infix_rfl, Nat.le_refl _⟩

theorem trans (hg : f.Extends g) (hh : g.Extends h) : f.Extends h where
  id := hh.id.trans hg.id
  name := hh.name.trans hg.name
  params := hh.params.trans hg.params
  saved := hg.saved.trans hh.saved
  lines := hg.lines.trans hh.lines
  localSize := Nat.le_trans hg.localSize hh.localSize

theorem addLine (f : Frame) (l : Line) : f.Extends (f.addLine l) :=
  { refl f with lines := (List.prefix_append _ _).isInfix }

theorem noteClobber (f : Frame) (reg : Text) : f.Extends (f.noteClobber reg) := by
  unfold Frame.noteClobber
  split
  · exact refl f
  · exact { refl f with
      saved := List.prefix_append _ _
      lines := (List.suffix_cons _ _).isInfix }

theorem addLocal (f : Frame) (t : Target) (name type : Text) :
    f.Extends (f.addLocal t name type) :=
  { refl f with localSize := Nat.le_add_right _ _ }

end Frame.Extends

namespace Engine

/-- Everything in the segments is still there, and no counter has gone back. -/
structure Grown (e e' : Engine) : Prop where
  target : e'.target = e.target
  strict : e'.strict = e.strict
  bss : e.bss <+: e'.bss
  data : e.data <+: e'.data
  funcs : e.funcs <+: e'.funcs
  builtins : e.builtins <+: e'.builtins
  text : e.text <+: e'.text
  symbols : e.symbols <+: e'.symbols
  ended : e.ended <+: e'.ended
  log : e.log <+: e'.log
  printBuffers : e.printBuffers ≤ e'.printBuffers
  literals : e.literals ≤ e'.literals
  printInt : e.printIntAdded → e'.printIntAdded
  printFloat : e.printFloatAdded → e'.printFloatAdded

/-- Everything in the engine is still there, also in its open function. -/
structure Extends (e e' : Engine) : Prop extends Grown e e' where
  current : ∀ f, e.current = some f → ∃ g, e'.current = some g ∧ f.Extends g

variable {e e' e'' : Engine}

namespace Grown

theorem refl (e : Engine) : e.Grown e where
  target := rfl
  strict := rfl
  bss := List.prefix_rfl
  data := List.prefix_rfl
  funcs := List.prefix_rfl
  builtins := List.prefix_rfl
  text := List.prefix_rfl
  symbols := List.prefix_rfl
  ended := List.prefix_rfl
  log := List.prefix_rfl
  printBuffers := Nat.le_refl _
  literals := Nat.le_refl _
  printInt := id
  printFloat := id

theorem trans (h : e.Grown e') (h' : e'.Grown e'') : e.Grown e'' where
  target := h'.target.trans h.target
  strict := h'.strict.trans h.strict
  bss := h.bss.trans h'.bss
  data := h.data.trans h'.data
  funcs := h.funcs.trans h'.funcs
  builtins := h.builtins.trans h'.builtins
  text := h.text.trans h'.text
  symbols := h.symbols.trans h'.symbols
  ended := h.ended.trans h'.ended
  log := h.log.trans h'.log
  printBuffers := Nat.le_trans h.printBuffers h'.printBuffers
  literals := Nat.le_trans h.literals h'.literals
  printInt := h'.printInt ∘ h.printInt
  printFloat := h'.printFloat ∘ h.printFloat

end Grown

namespace Extends

theorem refl (e : Engine) : e.Extends e := ⟨.refl e, fun f hf => ⟨f, hf, .refl f⟩⟩

theorem trans (h : e.Extends e') (h' : e'.Extends e'') : e.Extends e'' := by
  refine ⟨h.toGrown.trans h'.toGrown, fun f hf => ?_⟩
  obtain ⟨g, hg, hfg⟩ := h.current f hf
  obtain ⟨k, hk, hgk⟩ := h'.current g hg
  exact ⟨k, hk, hfg.trans hgk⟩

theorem of_current_eq_none (h : e.Grown e') (hnone : e.current = none) : e.Extends e' :=
  ⟨h, fun f hf => by rw [hnone] at hf; cases hf⟩

end Extends

/-! ## Moves -/

theorem extends_mapCurrent (e : Engine) {k : Frame → Frame} (hk : ∀ f : Frame, f.Extends (k f)) :
    e.Extends (e.mapCurrent k) := by
  refine ⟨{ Grown.refl e with }, fun f hf => ⟨k f, ?_, hk f⟩⟩
  rw [mapCurrent, hf]
  rfl

theorem extends_addLine (e : Engine) (l : Line) : e.Extends (e.addLine l) := by
  unfold addLine
  split
  case h_1 f hcur =>
    refine ⟨{ Grown.refl e with }, fun g hg => ⟨f.addLine l, rfl, ?_⟩⟩
    rw [hcur] at hg
    cases hg
    exact .addLine f l
  case h_2 hcur =>
    exact .of_current_eq_none { Grown.refl e with text := List.prefix_append _ _ } hcur

theorem extends_addSymbol (e : Engine) (name : Text) : e.Extends (e.addSymbol name) := by
  unfold addSymbol
  split
  · exact .refl e
  · exact { Extends.refl e with symbols := List.prefix_append _ _ }

theorem extends_link (e : Engine) (b : Builtin) : e.Extends (e.link b) := by
  cases b with
  | printInt =>
    exact { Extends.refl e with builtins := List.prefix_append _ _, printInt := fun _ => rfl }
  | printFloat =>
    exact { Extends.refl e with builtins := List.prefix_append _ _, printFloat := fun _ => rfl }

theorem extends_take (e : Engine) (c : RegClass) : e.Extends (e.take c) := by
  unfold take
  split
  case h_1 a regs _ =>
    have hregs : e.Extends { e with regs := regs } := { Extends.refl e with }
    split
    · exact hregs.trans (extends_mapCurrent _ fun f => .noteClobber f a.reg)
    · exact hregs
  case h_2 => exact .refl e

theorem grown_enter (e : Engine) (name : Text) (params : List Param) :
    e.Grown (e.enter name params) := by
  unfold enter
  split
  · exact .refl e
  · exact { Grown.refl e with funcs := List.prefix_append _ _ }

theorem grown_leave (e : Engine) : e.Grown e.leave := by
  unfold leave
  split
  · exact { Grown.refl e with
      funcs := List.prefix_append _ _
      ended := List.prefix_append _ _ }
  · exact .refl e

theorem extends_make (e : Engine) {m : Move} (h : m.inner) : e.Extends (e.make m) := by
  cases m with
  | instr i => exact e.extends_addLine _
  | raw t => exact e.extends_addLine _
  | reserve r => exact { Extends.refl e with bss := List.prefix_append _ _ }
  | store d => exact { Extends.refl e with data := List.prefix_append _ _ }
  | define name => exact e.extends_addSymbol name
  | countLiteral => exact { Extends.refl e with literals := Nat.le_succ _ }
  | countPrint => exact { Extends.refl e with printBuffers := Nat.le_succ _ }
  | link b => exact e.extends_link b
  | take c => exact e.extends_take c
  | give c reg => exact { Extends.refl e with }
  | resetRegs => exact { Extends.refl e with }
  | enter name params => cases h
  | addLocal name type => exact e.extends_mapCurrent fun f => .addLocal f e.target name type
  | cache name v => exact e.extends_mapCurrent fun f => { Frame.Extends.refl f with }
  | leave => cases h
  | log level message fields => exact { Extends.refl e with log := List.prefix_append _ _ }

theorem grown_make (e : Engine) (m : Move) : e.Grown (e.make m) := by
  cases hm : m.inner with
  | true => exact (e.extends_make hm).toGrown
  | false =>
    cases m with
    | enter name params => exact e.grown_enter name params
    | leave => exact e.grown_leave
    | _ => cases hm

theorem extends_makeAll (e : Engine) {ms : List Move} (h : ∀ m ∈ ms, m.inner) :
    e.Extends (e.makeAll ms) := by
  induction ms generalizing e with
  | nil => exact .refl e
  | cons m ms ih =>
    have hm := e.extends_make (h m List.mem_cons_self)
    exact hm.trans (ih (e.make m) fun k hk => h k (List.mem_cons_of_mem m hk))

theorem grown_makeAll (e : Engine) (ms : List Move) : e.Grown (e.makeAll ms) := by
  induction ms generalizing e with
  | nil => exact .refl e
  | cons m ms ih => exact (e.grown_make m).trans (ih (e.make m))

end Engine

end Assembly
