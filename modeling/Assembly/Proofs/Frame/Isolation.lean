import Assembly.Proofs.Engine.Alike

/-!
# Functions do not see what was before them

What a function becomes depends on the target, the mode, the counters and the symbols, and on
nothing else that an engine went through before: not on its registers, since beginning a
function takes all of them back, and not on its segments or routines.

A part of an operation answers the same on engines that are alike and leaves them alike.  A
routine is where the moves themselves may differ: one engine adds it, the other has it.
-/

namespace Assembly

open Engine Move

/-- The routines that come with a routine: it may call another one. -/
def Builtin.chain : Builtin → List Builtin
  | .printInt => [.printInt]
  | .printFloat => [.printInt, .printFloat]

namespace Emit

variable {α β : Type} {R : Engine → Engine → Engine → Engine → Prop} {o o' e e' : Engine}

/-- Related engines answer the same and stay related. -/
def Respects (R : Engine → Engine → Engine → Engine → Prop) (m : Emit α) : Prop :=
  ∀ ⦃o o' e e' : Engine⦄, R o o' e e' →
    (m e).1 = (m e').1 ∧ R o o' (e.makeAll (m e).2) (e'.makeAll (m e').2)

namespace Respects

theorem pure (a : α) : (Pure.pure a : Emit α).Respects R := fun _ _ _ _ h => ⟨rfl, h⟩

theorem throw (x : EmitError) : (MonadExcept.throw x : Emit α).Respects R :=
  fun _ _ _ _ h => ⟨rfl, h⟩

theorem bind {m : Emit α} {f : α → Emit β} (hm : m.Respects R) (hf : ∀ a, (f a).Respects R) :
    (m >>= f).Respects R := by
  intro o o' e e' h
  obtain ⟨hanswer, hafter⟩ := hm h
  rw [bind_apply, bind_apply, ← hanswer]
  cases (m e).1 with
  | error x => exact ⟨rfl, hafter⟩
  | ok a =>
    dsimp only
    rw [makeAll_append, makeAll_append]
    exact hf a hafter

theorem map {m : Emit α} (hm : m.Respects R) (k : α → β) : (k <$> m).Respects R :=
  hm.bind fun a => pure (k a)

theorem rewording {m : Emit α} (hm : m.Respects R) (words : EmitError → EmitError) :
    (m.rewording words).Respects R := by
  intro o o' e e' h
  obtain ⟨hanswer, hafter⟩ := hm h
  exact ⟨congrArg (·.mapError words) hanswer, hafter⟩

theorem finishing {m : Emit α} {last : Emit Unit} (hm : m.Respects R) (hlast : last.Respects R) :
    (m.finishing last).Respects R := by
  intro o o' e e' h
  obtain ⟨hanswer, hafter⟩ := hm h
  refine ⟨hanswer, ?_⟩
  rw [Emit.finishing, Emit.finishing, makeAll_append, makeAll_append]
  exact (hlast hafter).2

/-- An operation that does not notice which of the engines it runs on. -/
theorem of_same {m : Emit α} (hsame : ∀ {o o' e e' : Engine}, Alike o o' e e' → m e = m e')
    (hlinks : ∀ e b, .link b ∉ (m e).2) : m.Respects Alike := by
  intro o o' e e' h
  rw [← hsame h]
  exact ⟨rfl, h.makeAll (hlinks e)⟩

theorem moves {ms : List Move} (hlinks : ∀ b, .link b ∉ ms) : (Emit.moves ms).Respects Alike :=
  of_same (fun _ => rfl) fun _ => hlinks

end Respects

/-! ## Checks -/

/-- The operation notes symbols and logs at most, and the same on engines that are kin. -/
structure Checks (m : Emit α) : Prop where
  same : ∀ {o o' e e' : Engine}, Kin o o' e e' → m e = m e'
  quiet : ∀ e, ∀ k ∈ (m e).2, k.quiet ∧ ∀ b, k ≠ .link b

namespace Checks

theorem core {m : Emit α} (hm : m.Checks) (e : Engine) : (e.makeAll (m e).2).core = e.core := by
  refine core_makeAll_of_quiet e (List.filter_eq_nil_iff.mpr fun k hk => ?_)
  simp [(hm.quiet e k hk).1]

theorem kin {m : Emit α} (hm : m.Checks) : m.Respects Kin := by
  intro o o' e e' h
  rw [← hm.same h]
  refine ⟨rfl, ?_⟩
  have hquiet := hm.quiet e
  generalize (m e).2 = ms at hquiet
  induction ms generalizing e e' with
  | nil => exact h
  | cons k ms ih =>
    obtain ⟨hk, hms⟩ := List.forall_mem_cons.mp hquiet
    exact ih (h.make_of_quiet hk.1 hk.2) hms

theorem alike {m : Emit α} (hm : m.Checks) : m.Respects Alike :=
  .of_same (fun h => hm.same h.toKin) fun e b hb => (hm.quiet e _ hb).2 b rfl

theorem pure (a : α) : (Pure.pure a : Emit α).Checks :=
  ⟨fun _ => rfl, fun _ _ hk => absurd hk List.not_mem_nil⟩

theorem bind {m : Emit α} {f : α → Emit β} (hm : m.Checks) (hf : ∀ a, (f a).Checks) :
    (m >>= f).Checks := by
  refine ⟨fun {o o' e e'} h => ?_, fun e k hk => ?_⟩
  · have hafter := (hm.kin h).2
    have hsame := hm.same h
    rw [bind_apply, bind_apply, ← hsame]
    rw [← hsame] at hafter
    cases (m e).1 with
    | error x => rfl
    | ok a =>
      dsimp only
      rw [(hf a).same hafter]
  · rw [bind_apply] at hk
    cases hanswer : (m e).1 with
    | error x =>
      rw [hanswer] at hk
      exact hm.quiet e k hk
    | ok a =>
      rw [hanswer] at hk
      rcases List.mem_append.mp hk with hk | hk
      · exact hm.quiet e k hk
      · exact (hf a).quiet _ k hk

theorem rewording {m : Emit α} (hm : m.Checks) (words : EmitError → EmitError) :
    (m.rewording words).Checks := by
  refine ⟨fun h => ?_, hm.quiet⟩
  rw [Emit.rewording, Emit.rewording, hm.same h]

theorem quiet_log (level : Log.Level) (message : Text) (fields : List (Text × Text)) :
    (Move.log level message fields).quiet ∧ ∀ b, Move.log level message fields ≠ .link b :=
  ⟨rfl, fun b hb => by cases hb⟩

theorem checkType (type : Text) : (Emit.checkType type).Checks := by
  refine ⟨fun h => ?_, fun e => ?_⟩
  · rw [checkType_run, checkType_run, h.target, h.strict]
  · rw [checkType_run]
    split
    · exact fun k hk => absurd hk List.not_mem_nil
    · split
      · exact fun k hk => absurd hk List.not_mem_nil
      · exact List.forall_mem_singleton.mpr (quiet_log _ _ _)

theorem claimSymbol (name : Text) : (Emit.claimSymbol name).Checks := by
  refine ⟨fun h => ?_, fun e => ?_⟩
  · rw [claimSymbol_run, claimSymbol_run, h.symbols, h.strict]
  · have hdefine : (Move.define name).quiet ∧ ∀ b, Move.define name ≠ .link b :=
      ⟨rfl, fun b hb => by cases hb⟩
    rw [claimSymbol_run]
    split
    · split
      · exact fun k hk => absurd hk List.not_mem_nil
      · exact List.forall_mem_cons.mpr ⟨quiet_log _ _ _, List.forall_mem_singleton.mpr hdefine⟩
    · exact List.forall_mem_singleton.mpr hdefine

theorem claimFunction (name : Text) (params : List Param) :
    (Emit.claimFunction name params).Checks := by
  refine (claimSymbol name).bind fun _ => ?_
  induction params with
  | nil => exact pure ()
  | cons p params ih => exact ((checkType p.type).rewording _).bind fun _ => ih

end Checks

/-! ## Routines -/

theorem need_run (h : e.Furnished) (b : Builtin) : need b e =
    (.ok (), b.chain.flatMap fun c => if e.hasBuiltin c then [] else joining c) := by
  cases b with
  | printInt =>
    rw [need_printInt, Builtin.chain, List.flatMap_singleton]
    rfl
  | printFloat =>
    rw [need_printFloat]
    cases hfloat : e.printFloatAdded with
    | true =>
      have hint : e.printIntAdded = true := h.order hfloat
      simp [Builtin.chain, hasBuiltin, hfloat, hint]
    | false => simp [Builtin.chain, hasBuiltin, hfloat]

theorem hasBuiltin_need (h : e.Furnished) (b c : Builtin) :
    (e.makeAll (need b e).2).hasBuiltin c = true ↔ e.hasBuiltin c = true ∨ c ∈ b.chain := by
  have hlink : ∀ a, .link c ∈ joining a ↔ a = c := by cases c <;> intro a <;> cases a <;> decide
  rw [hasBuiltin_makeAll, need_run h, List.mem_flatMap]
  constructor
  · rintro (hc | ⟨a, ha, hc⟩)
    · exact .inl hc
    · by_cases hold : e.hasBuiltin a = true
      · rw [if_pos hold] at hc
        cases hc
      · rw [if_neg hold] at hc
        exact .inr ((hlink a).mp hc ▸ ha)
  · rintro (hc | hc)
    · exact .inl hc
    · by_cases hold : e.hasBuiltin c = true
      · exact .inl hold
      · refine .inr ⟨c, hc, ?_⟩
        rw [if_neg hold]
        exact (hlink c).mpr rfl

/-- The same symbols are defined whether a routine was there or not. -/
theorem defines_need (h : e.Furnished) (b : Builtin) (name : Text) :
    (e.makeAll (need b e).2).defines name = true ↔
      e.defines name = true ∨ ∃ c ∈ b.chain, .define name ∈ joining c := by
  rw [defines_makeAll, need_run h, List.mem_flatMap]
  constructor
  · rintro (hname | ⟨c, hc, hname⟩)
    · exact .inl hname
    · split at hname
      · cases hname
      · exact .inr ⟨c, hc, hname⟩
  · rintro (hname | ⟨c, hc, hname⟩)
    · exact .inl hname
    · by_cases hold : e.hasBuiltin c = true
      · exact .inl (h.symbols c name hold hname)
      · refine .inr ⟨c, hc, ?_⟩
        rwa [if_neg hold]

theorem furnished_need (h : e.Furnished) (b : Builtin) : (e.makeAll (need b e).2).Furnished := by
  refine ⟨fun c name hc hname => ?_, fun hfloat => ?_⟩
  · rw [defines_need h]
    rcases (hasBuiltin_need h b c).mp hc with hold | hnew
    · exact .inl (h.symbols c name hold hname)
    · exact .inr ⟨c, hnew, hname⟩
  · rw [hasBuiltin_need h]
    rcases (hasBuiltin_need h b _).mp hfloat with hold | hnew
    · exact .inl (h.order hold)
    · right
      cases b with
      | printInt => simp [Builtin.chain] at hnew
      | printFloat => simp [Builtin.chain]

theorem counters_need (h : e.Furnished) (b : Builtin) :
    (e.makeAll (need b e).2).literals = e.literals ∧
      (e.makeAll (need b e).2).printBuffers = e.printBuffers := by
  show (e.makeAll (need b e).2).stock.literals = e.stock.literals ∧
    (e.makeAll (need b e).2).stock.printBuffers = e.stock.printBuffers
  rw [makeAll_stock, need_run h]
  cases b with
  | printInt =>
    cases hint : e.hasBuiltin .printInt <;> simp [Builtin.chain, hint, joining, Stock.note]
  | printFloat =>
    cases hint : e.hasBuiltin .printInt <;> cases hfloat : e.hasBuiltin .printFloat <;>
      simp [Builtin.chain, hint, hfloat, joining, Stock.note]

theorem core_need (h : e.Furnished) (b : Builtin) : (e.makeAll (need b e).2).core = e.core := by
  refine core_makeAll_of_quiet e ?_
  have hok : (need b e).1 = .ok () := by rw [need_run h]
  cases b with
  | printInt => exact needPrintInt_quiet (Prod.ext hok rfl)
  | printFloat => exact needPrintFloat_quiet (Prod.ext hok rfl)

theorem need_respects (b : Builtin) : (need b).Respects Alike := by
  intro o o' e e' h
  have hcore := core_need h.furnished b
  have hcore' := core_need h.furnished' b
  obtain ⟨hliterals, hprints⟩ := counters_need h.furnished b
  obtain ⟨hliterals', hprints'⟩ := counters_need h.furnished' b
  refine ⟨by rw [need_run h.furnished, need_run h.furnished'], h.of_core hcore hcore' ?_ ?_ ?_
    (furnished_need h.furnished b) (furnished_need h.furnished' b), ?_⟩
  · rw [hliterals, hliterals', h.literals]
  · rw [hprints, hprints', h.prints]
  · intro name
    rw [Bool.eq_iff_iff, defines_need h.furnished, defines_need h.furnished', h.symbols]
  · have hregs := (congrArg Engine.regs hcore :)
    have hregs' := (congrArg Engine.regs hcore' :)
    exact hregs.trans (h.regs.trans hregs'.symm)

/-! ## Parts -/

theorem allocRegAs_respects (type : Text) (temp : Bool) : (allocRegAs type temp).Respects Alike := by
  refine .of_same (fun h => ?_) fun e b => ?_
  · rw [allocRegAs_run, allocRegAs_run, h.regs]
  · rw [allocRegAs_run]
    split
    · simp
    · split <;> simp

theorem release_respects (v : Value) : (release v).Respects Alike := by
  refine .of_same (fun h => ?_) fun e b => ?_
  · rw [release_run, release_run, h.regs]
  · rw [release_run]
    split <;> simp

theorem addLiteral_respects (stem : Text) (directive : Target → Directive) (content : Content) :
    (addLiteral stem directive content).Respects Alike := by
  refine .of_same (fun h => ?_) fun e b => ?_
  · rw [addLiteral_run, addLiteral_run, h.literals, h.target]
  · simp [addLiteral_run]

theorem printString_respects (s : Text) : (printString s).Respects Alike := by
  refine .of_same (fun {o o' e e'} h => ?_) fun e b hb => ?_
  · have hcode : ∀ label length, writeCode e label length = writeCode e' label length := by
      intro label length
      rw [writeCode, writeCode, h.target, h.regs]
    rw [printString_run, printString_run, h.prints, hcode]
  · rw [printString_run] at hb
    rcases List.mem_append.mp hb with hb | hb
    · simp at hb
    · obtain ⟨i, -, hi⟩ := List.mem_map.mp hb
      cases hi

theorem Part.respects {q : Request} {known : List Text} {m : Emit α} (h : Part q known m) :
    m.Respects Alike := by
  induction h with
  | pure a => exact .pure a
  | throw => exact .throw _
  | bind _ _ ihm ihf => exact ihm.bind ihf
  | @reading _ _ f hsame _ ih =>
    intro o o' e e' halike
    have hrest : f e = f e' := hsame e e' halike.target
    show (f e e).1 = (f e' e').1 ∧ Alike o o' (e.makeAll (f e e).2) (e'.makeAll (f e' e').2)
    rw [← hrest]
    exact ih e halike
  | rewording _ _ ih => exact ih.rewording _
  | finishing _ v ih => exact ih.finishing (release_respects v)
  | moves h => exact .moves fun b hb => absurd (h _ hb) Bool.false_ne_true
  | instrs is => exact .moves fun b hb => by simp at hb
  | leave | calls => exact .moves fun b hb => by simp at hb
  | checkType type => exact (Checks.checkType type).alike
  | claimSymbol => exact (Checks.claimSymbol _).alike
  | keeping _ hm =>
    refine .moves fun b hb => ?_
    rw [← List.mem_singleton.mp hb] at hm
    cases hm
  | allocRegAs type temp => exact allocRegAs_respects type temp
  | release v => exact release_respects v
  | addLiteral _ directive content _ ih => exact (addLiteral_respects _ directive content).bind ih
  | printString s => exact printString_respects s
  | need b _ ih => exact (need_respects b).bind fun _ => ih

/-! ## Operations on a function -/

theorem openFrame_alike (h : Alike o o' e e') (f : FunctionRef) :
    (∃ x, openFrame (f.shift o.nextId) e = (.error x, []) ∧
      openFrame (f.shift o'.nextId) e' = (.error x, [])) ∨
    ∃ g : Frame, openFrame (f.shift o.nextId) e = (.ok (g.shift o.nextId), []) ∧
      openFrame (f.shift o'.nextId) e' = (.ok (g.shift o'.nextId), []) := by
  obtain ⟨g, hg, hg'⟩ := h.current
  rw [openFrame_run, openFrame_run, hg, hg']
  cases g with
  | none => exact .inl ⟨.functionEnded f.name, rfl, rfl⟩
  | some g =>
    have hiff : ∀ n, (g.shift n).id = (f.shift n).id ↔ g.id = f.id := by
      intro n
      show g.id + n = f.id + n ↔ _
      omega
    by_cases hid : g.id = f.id
    · exact .inr ⟨g, if_pos ((hiff _).mpr hid), if_pos ((hiff _).mpr hid)⟩
    · exact .inl ⟨.functionEnded f.name, if_neg (mt (hiff _).mp hid), if_neg (mt (hiff _).mp hid)⟩

/-- An operation on the open function that does not use its number otherwise. -/
theorem openFrame_bind_alike {rest : Frame → Emit α} (hrest : ∀ g, (rest g).Respects Alike)
    (hid : ∀ g n, rest (g.shift n) = rest g) (h : Alike o o' e e') (f : FunctionRef) :
    ((openFrame (f.shift o.nextId) >>= rest) e).1 = ((openFrame (f.shift o'.nextId) >>= rest) e').1 ∧
      Alike o o' (e.makeAll ((openFrame (f.shift o.nextId) >>= rest) e).2)
        (e'.makeAll ((openFrame (f.shift o'.nextId) >>= rest) e').2) := by
  rw [bind_apply, bind_apply]
  rcases openFrame_alike h f with ⟨x, hx, hx'⟩ | ⟨g, hg, hg'⟩
  · rw [hx, hx']
    exact ⟨rfl, h⟩
  · rw [hg, hg']
    dsimp only
    rw [hid, hid]
    exact hrest g h

theorem addLocal_respects (g : Frame) (name type : Text) : (addLocal g name type).Respects Alike := by
  refine .of_same (fun h => ?_) fun e b => ?_
  · rw [addLocal_run, addLocal_run, h.strict, h.target]
  · rw [addLocal_run]
    split <;> simp

/-! ## Beginning a function -/

/-- What was refused has noted a symbol at most. -/
theorem core_of_refused {name : Text} {params : List Param} {x : EmitError}
    (h : (beginFunction name params e).1 = .error x) :
    (e.makeAll (beginFunction name params e).2).core = e.core := by
  rw [beginFunction_run] at h ⊢
  cases hc : e.current with
  | some f => rfl
  | none =>
    rw [hc] at h
    have hcore := (Checks.claimFunction name params).core e
    rw [bind_apply] at h ⊢
    cases hanswer : (claimFunction name params e).1 with
    | error y => exact hcore
    | ok u =>
      rw [hanswer] at h
      cases h

/-- Where no function is open, engines that are kin begin a function or refuse it both, and
they are alike once it has begun. -/
theorem beginFunction_related (hkin : ∀ {o o' e e' : Engine}, R o o' e e' → Kin o o' e e')
    {name : Text} {params : List Param} (hclaim : (claimFunction name params).Respects R)
    (h : R o o' e e') (hnone : e.current = none) :
    (∃ x, (beginFunction name params e).1 = .error x ∧ (beginFunction name params e').1 = .error x ∧
      R o o' (e.makeAll (beginFunction name params e).2)
        (e'.makeAll (beginFunction name params e').2)) ∨
    (beginFunction name params e).1 = .ok ⟨e.nextId, name⟩ ∧
      (beginFunction name params e').1 = .ok ⟨e'.nextId, name⟩ ∧
      Alike o o' (e.makeAll (beginFunction name params e).2)
        (e'.makeAll (beginFunction name params e').2) := by
  have hnone' := (hkin h).current_eq_none hnone
  obtain ⟨hanswer, hafter⟩ := hclaim h
  rw [beginFunction_run, beginFunction_run, hnone, hnone']
  dsimp only
  rw [bind_apply, bind_apply, ← hanswer]
  cases (claimFunction name params e).1 with
  | error x => exact .inl ⟨x, rfl, rfl, hafter⟩
  | ok u =>
    have hcore := (Checks.claimFunction name params).core e
    have hcore' := (Checks.claimFunction name params).core e'
    have hopen : (e.makeAll (claimFunction name params e).2).current = none :=
      ((congrArg Engine.current hcore :)).trans hnone
    have hid : (e.makeAll (claimFunction name params e).2).nextId = e.nextId :=
      (congrArg Engine.nextId hcore :)
    have hid' : (e'.makeAll (claimFunction name params e').2).nextId = e'.nextId :=
      (congrArg Engine.nextId hcore' :)
    right
    dsimp only
    rw [enterFunction_run, enterFunction_run, hid, hid', makeAll_append, makeAll_append]
    refine ⟨rfl, rfl, ?_⟩
    simp only [makeAll_cons, makeAll_nil]
    refine ((hkin hafter).enter hopen name params).make ?_
    intro b hb
    cases hb

end Emit

/-! ## Requests -/

namespace Request

open Emit

variable {o o' e e' : Engine}

theorem reply_ne_function {q : Request} (hq : ∀ name params, q ≠ beginFunction name params)
    (e : Engine) (f : FunctionRef) : e.reply q ≠ .ok (.function f) := by
  have hmap : ∀ {α : Type} {k : α → Reply} (m : Emit α), (∀ a, k a ≠ .function f) →
      ((k <$> m) e).1 ≠ .ok (.function f) := by
    intro α k m hk h
    rw [map_apply] at h
    cases hanswer : (m e).1 with
    | error x =>
      rw [hanswer] at h
      cases h
    | ok a =>
      rw [hanswer] at h
      exact hk a (Except.ok.inj h)
  cases q with
  | beginFunction name params => exact absurd rfl (hq name params)
  | _ => exact hmap _ fun _ h => by cases h

/-- A reply that is no function is the same wherever functions are counted from. -/
theorem map_shift_reply {q : Request} (hq : ∀ name params, q ≠ beginFunction name params)
    (e : Engine) (n : Nat) : (e.reply q).map (Reply.shift n) = e.reply q := by
  cases hr : e.reply q with
  | error x => rfl
  | ok r =>
    cases r with
    | function f => exact absurd hr (reply_ne_function hq e f)
    | done | value | program => rfl

theorem alike_of_operation (h : Alike o o' e e') {q : Request} (hfinal : q ≠ finalize)
    (hq : ∀ name params, q ≠ beginFunction name params) :
    e.reply (q.shift o.nextId) = e'.reply (q.shift o'.nextId) ∧
      Alike o o' (e.serve (q.shift o.nextId)) (e'.serve (q.shift o'.nextId)) := by
  cases q.shape with
  | part hshift hpart =>
    rw [hshift, hshift]
    exact hpart.respects h
  | onFrame f hshift hop =>
    obtain ⟨rest, hop, hpart, hid⟩ := hop
    have hemit : ∀ n, (q.shift n).emit = openFrame (f.shift n) >>= rest := fun n => by
      rw [hshift, hop]
    rw [Engine.reply, Engine.reply, Engine.serve, Engine.serve, Engine.movesOf, Engine.movesOf]
    rw [hemit, hemit]
    exact openFrame_bind_alike (fun g => (hpart g).respects) (fun g n => hid g _) h f
  | beginFunction hbegin => exact absurd hbegin (hq _ _)
  | @declareLocal f name type hlocal =>
    subst hlocal
    let rest (g : Frame) : Emit Reply :=
      Reply.value <$> (checkType type >>= fun _ => addLocal g name type)
    have hrest : ∀ g, (rest g).Respects Alike := fun g =>
      ((Checks.checkType type).alike.bind fun _ => addLocal_respects g name type).map _
    have hemit : ∀ n, ((declareLocal f name type).shift n).emit = openFrame (f.shift n) >>= rest := by
      intro n
      show Reply.value <$> Emit.declareLocal (f.shift n) name type = _
      simp only [declareLocal_eq, frameFor, rest, bind_assoc, pure_bind, map_bind]
    rw [Engine.reply, Engine.reply, Engine.serve, Engine.serve, Engine.movesOf, Engine.movesOf]
    rw [hemit, hemit]
    exact openFrame_bind_alike hrest (fun _ _ => rfl) h f
  | finalize hq => exact absurd hq hfinal

theorem reply_begin (e : Engine) (name : Text) (params : List Param) :
    e.reply (beginFunction name params) = (Emit.beginFunction name params e).1.map .function := by
  show ((Reply.function <$> Emit.beginFunction name params) e).1 = _
  rw [map_apply]

theorem serve_begin (e : Engine) (name : Text) (params : List Param) :
    e.serve (beginFunction name params) = e.makeAll (Emit.beginFunction name params e).2 := by
  show e.makeAll ((Reply.function <$> Emit.beginFunction name params) e).2 = _
  rw [map_apply]

theorem alike_of_begin (h : Alike o o' e e') (name : Text) (params : List Param) :
    ∃ r : Except EmitError Reply,
      e.reply (beginFunction name params) = r.map (Reply.shift o.nextId) ∧
      e'.reply (beginFunction name params) = r.map (Reply.shift o'.nextId) ∧
      Alike o o' (e.serve (beginFunction name params)) (e'.serve (beginFunction name params)) := by
  rw [reply_begin, reply_begin, serve_begin, serve_begin]
  cases hc : e.current with
  | some g =>
    obtain ⟨f, hf, hf'⟩ := h.current
    cases f with
    | none =>
      rw [hf] at hc
      cases hc
    | some f =>
      rw [beginFunction_run, beginFunction_run, hf, hf']
      exact ⟨.error (.functionOpen name f.name), rfl, rfl, h⟩
  | none =>
    have hclaim := (Checks.claimFunction name params).alike
    rcases beginFunction_related Alike.toKin hclaim h hc with ⟨x, hx, hx', hafter⟩ | ⟨hf, hf', hafter⟩
    · rw [hx, hx']
      exact ⟨.error x, rfl, rfl, hafter⟩
    · obtain ⟨k, hk, hk'⟩ := h.nextId
      rw [hf, hf', hk, hk']
      exact ⟨.ok (.function ⟨k, name⟩), rfl, rfl, hafter⟩

theorem alike (h : Alike o o' e e') {q : Request} (hq : q ≠ finalize) :
    ∃ r : Except EmitError Reply, e.reply (q.shift o.nextId) = r.map (Reply.shift o.nextId) ∧
      e'.reply (q.shift o'.nextId) = r.map (Reply.shift o'.nextId) ∧
      Alike o o' (e.serve (q.shift o.nextId)) (e'.serve (q.shift o'.nextId)) := by
  by_cases hbegin : ∃ name params, q = beginFunction name params
  · obtain ⟨name, params, rfl⟩ := hbegin
    exact alike_of_begin h name params
  · have hother : ∀ n name params, q.shift n ≠ beginFunction name params := by
      intro n name params hn
      refine hbegin ⟨name, params, ?_⟩
      cases q <;> first | exact hn | cases hn
    obtain ⟨hreply, hafter⟩ := alike_of_operation h hq fun name params hb => hbegin ⟨name, params, hb⟩
    refine ⟨e.reply (q.shift o.nextId), ?_, ?_, hafter⟩
    · rw [map_shift_reply (hother _)]
    · rw [hreply, map_shift_reply (hother _)]

end Request

/-! ## Runs -/

namespace Engine

variable {o o' e e' : Engine}

/-- The replies to requests made in turn. -/
def replies (e : Engine) : List Request → List (Except EmitError Reply)
  | [] => []
  | q :: qs => e.reply q :: (e.serve q).replies qs

theorem Alike.serveAll (h : Alike o o' e e') {qs : List Request} (hqs : .finalize ∉ qs) :
    ∃ rs : List (Except EmitError Reply),
      e.replies (qs.map (·.shift o.nextId)) = rs.map (·.map (Reply.shift o.nextId)) ∧
      e'.replies (qs.map (·.shift o'.nextId)) = rs.map (·.map (Reply.shift o'.nextId)) ∧
      Alike o o' (e.serveAll (qs.map (·.shift o.nextId)))
        (e'.serveAll (qs.map (·.shift o'.nextId))) := by
  induction qs generalizing e e' with
  | nil => exact ⟨[], rfl, rfl, h⟩
  | cons q qs ih =>
    have hq : q ≠ .finalize := fun hq => hqs (hq ▸ List.mem_cons_self)
    obtain ⟨r, hr, hr', hnext⟩ := Request.alike h hq
    obtain ⟨rs, hrs, hrs', hafter⟩ := ih hnext fun hmem => hqs (List.mem_cons_of_mem q hmem)
    refine ⟨r :: rs, ?_, ?_, hafter⟩
    · rw [List.map_cons, List.map_cons, replies, hr, hrs]
    · rw [List.map_cons, List.map_cons, replies, hr', hrs']

theorem serveAll_mode (e : Engine) (qs : List Request) :
    (e.serveAll qs).strict = e.strict ∧ (e.serveAll qs).regs.kind = e.regs.kind := by
  induction qs generalizing e with
  | nil => exact ⟨rfl, rfl⟩
  | cons q qs ih =>
    obtain ⟨hstrict, hkind⟩ := ih (e.serve q)
    exact ⟨hstrict.trans (e.makeAll_strict _), hkind.trans (e.makeAll_regs_kind _)⟩

/-- Engines of the same target and mode are kin between functions if they agree on counters
and symbols. -/
theorem kin_of_pasts (t : Target) (strict : Bool) (past past' : List Request)
    (he : e = (new t strict).serveAll past) (he' : e' = (new t strict).serveAll past')
    (hopen : e.current = none) (hopen' : e'.current = none) (hliterals : e.literals = e'.literals)
    (hprints : e.printBuffers = e'.printBuffers) (hsymbols : ∀ x, e.defines x = e'.defines x) :
    Kin e e' e e' := by
  obtain ⟨hstrict, hkind⟩ := (new t strict).serveAll_mode past
  obtain ⟨hstrict', hkind'⟩ := (new t strict).serveAll_mode past'
  have hfurnished := (furnished_new t strict).serveAll (stocked_new t strict)
  refine ⟨?_, ?_, ?_, hliterals, hprints, hsymbols, ⟨none, hopen, hopen'⟩, ⟨0, ?_, ?_⟩,
    ⟨[], ?_, ?_⟩, ?_, ?_⟩
  · rw [he, he', serveAll_target, serveAll_target]
  · rw [he, he', hstrict, hstrict']
  · rw [he, he', hkind, hkind']
  · simp [nextId, hopen]
  · simp [nextId, hopen']
  · exact (List.append_nil _).symm
  · exact (List.append_nil _).symm
  · exact he ▸ hfurnished past
  · exact he' ▸ hfurnished past'

/-- What a function becomes does not depend on what came before it.

Two engines of the same target and mode that agree on the counters and on the symbols, with
no function open, both refuse a function, for the same reason and without adding code, or
both begin it.  Then the same requests, with functions counted from each engine's own number,
get the same replies and add the same code, whatever the engines were asked before. -/
theorem function_isolated (t : Target) (strict : Bool) (past past' : List Request)
    (he : e = (new t strict).serveAll past) (he' : e' = (new t strict).serveAll past')
    (hopen : e.current = none) (hopen' : e'.current = none) (hliterals : e.literals = e'.literals)
    (hprints : e.printBuffers = e'.printBuffers) (hsymbols : ∀ x, e.defines x = e'.defines x)
    (name : Text) (params : List Param) {body : List Request} (hbody : .finalize ∉ body) :
    (∃ x, e.reply (.beginFunction name params) = .error x ∧
      e'.reply (.beginFunction name params) = .error x ∧
      (e.serve (.beginFunction name params)).funcs = e.funcs ∧
      (e'.serve (.beginFunction name params)).funcs = e'.funcs) ∨
    ∃ (rs : List (Except EmitError Reply)) (ls : List Line),
      e.replies (.beginFunction name params :: body.map (·.shift e.nextId)) =
        .ok (.function ⟨e.nextId, name⟩) :: rs.map (·.map (Reply.shift e.nextId)) ∧
      e'.replies (.beginFunction name params :: body.map (·.shift e'.nextId)) =
        .ok (.function ⟨e'.nextId, name⟩) :: rs.map (·.map (Reply.shift e'.nextId)) ∧
      (e.serveAll (.beginFunction name params :: body.map (·.shift e.nextId))).funcs = e.funcs ++ ls ∧
      (e'.serveAll (.beginFunction name params :: body.map (·.shift e'.nextId))).funcs =
        e'.funcs ++ ls := by
  have hkin := kin_of_pasts t strict past past' he he' hopen hopen' hliterals hprints hsymbols
  have hclaim := (Emit.Checks.claimFunction name params).kin
  rcases Emit.beginFunction_related id hclaim hkin hopen with
    ⟨x, hx, hx', -⟩ | ⟨hf, hf', hbegun⟩
  · left
    have hfuncs := (congrArg Engine.funcs (Emit.core_of_refused hx) :)
    have hfuncs' := (congrArg Engine.funcs (Emit.core_of_refused hx') :)
    rw [Request.reply_begin, Request.reply_begin, Request.serve_begin, Request.serve_begin, hx, hx']
    exact ⟨x, rfl, rfl, hfuncs, hfuncs'⟩
  · right
    rw [← Request.serve_begin, ← Request.serve_begin] at hbegun
    obtain ⟨rs, hrs, hrs', hafter⟩ := hbegun.serveAll hbody
    obtain ⟨ls, hls, hls'⟩ := hafter.funcs
    refine ⟨rs, ls, ?_, ?_, hls, hls'⟩
    · rw [replies, Request.reply_begin, hf, hrs]
      rfl
    · rw [replies, Request.reply_begin, hf', hrs']
      rfl

/-- A function, a register in use and the routine that prints numbers. -/
def busyPast : List Request :=
  [.beginFunction "f" [], .endFunction ⟨0, "f"⟩, .alloc "int32", .print (.ofIntAs 1 "int32")]

/-- Storage under the names that the other past has for its function and routine. -/
def idlePast : List Request :=
  [.declareGlobal "f" "int32", .declareGlobal "print_buffer" "int32",
    .declareGlobal "newline" "int32", .declareGlobal "print_int" "int32"]

def printingBody : List Request :=
  [.declareLocal ⟨0, "g"⟩ "x" "int32", .alloc "int32", .print (.ofIntAs 2 "int32"),
    .declareGlobal "newline" "int32", .endFunction ⟨0, "g"⟩]

theorem function_isolated_printingBody :
    let e := (new .bits64 true).serveAll busyPast
    let e' := (new .bits64 true).serveAll idlePast
    e.nextId = 1 ∧ e'.nextId = 0 ∧ e.printIntAdded = true ∧ e'.printIntAdded = false ∧
      e.regs ≠ e'.regs ∧
      ∃ (rs : List (Except EmitError Reply)) (ls : List Line),
        e.replies (.beginFunction "g" [] :: printingBody.map (·.shift 1)) =
          .ok (.function ⟨1, "g"⟩) :: rs.map (·.map (Reply.shift 1)) ∧
        e'.replies (.beginFunction "g" [] :: printingBody.map (·.shift 0)) =
          .ok (.function ⟨0, "g"⟩) :: rs.map (·.map (Reply.shift 0)) ∧
        (e.serveAll (.beginFunction "g" [] :: printingBody.map (·.shift 1))).funcs = e.funcs ++ ls ∧
        (e'.serveAll (.beginFunction "g" [] :: printingBody.map (·.shift 0))).funcs =
          e'.funcs ++ ls := by
  intro e e'
  have hid : e.nextId = 1 := by decide +kernel
  have hid' : e'.nextId = 0 := by decide +kernel
  have hsymbols : e.symbols = e'.symbols := by decide +kernel
  refine ⟨hid, hid', by decide +kernel, by decide +kernel, by decide +kernel, ?_⟩
  have hgranted : e.reply (.beginFunction "g" []) = .ok (.function ⟨1, "g"⟩) := by rfl
  have hbody : .finalize ∉ printingBody := by decide +kernel
  have hboth := function_isolated .bits64 true busyPast idlePast rfl rfl (by decide +kernel)
    (by decide +kernel) (by decide +kernel) (by decide +kernel)
    (fun x => congrArg (·.contains x) hsymbols) "g" [] hbody
  rcases hboth with ⟨x, hx, -⟩ | hrun
  · cases hgranted.symm.trans hx
  · rwa [hid, hid'] at hrun

end Engine

end Assembly
