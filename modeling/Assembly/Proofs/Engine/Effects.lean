import Assembly.Proofs.Engine.Grant
import Assembly.Proofs.Engine.Move

/-!
# What granted operations do

For each operation, the moves that it makes when it is granted, up to the quiet ones.  The
registers in these moves are described by `RegisterFile.Hands`; the instructions are the
ones that the functions of the target choose.
-/

namespace Assembly.Emit

open Move

variable {e : Engine} {ms : List Move} {u : Unit} {a v : Value} {type name : Text}

/-! ## Policy and storage -/

theorem checkType_quiet (h : (checkType type).Grants e u ms) : essence ms = [] := by
  simp only [checkType, warn, move, grants_read_bind, grants_ite, grants_pure, grants_moves,
    grants_throw_bind, if_false_left] at h
  split at h
  · rw [h.2]; rfl
  · rw [h.2]; rfl

theorem claimSymbol_quiet (h : (claimSymbol name).Grants e u ms) : essence ms = [] := by
  simp only [claimSymbol, warn, move, grants_read_bind, grants_ite, grants_moves_bind, grants_moves,
    grants_throw_bind, if_false_left] at h
  split at h
  · obtain ⟨-, _, rfl, rfl⟩ := h
    rfl
  · rw [h]; rfl

theorem materialize_quiet (h : (materialize v type).Grants e a ms) : essence ms = [] := by
  simp only [materialize, addGenerated, move, grants_ite, grants_read_bind, grants_moves_bind,
    grants_pure] at h
  split at h
  · rw [h.2]; rfl
  · obtain ⟨_, ⟨_, ⟨-, rfl⟩, rfl⟩, rfl⟩ := h
    rfl

theorem stringLabel_quiet {t label : Text} (h : (stringLabel t).Grants e label ms) :
    essence ms = [] := by
  simp only [stringLabel, addGenerated, move, grants_read_bind, grants_moves_bind, grants_pure] at h
  obtain ⟨_, ⟨_, ⟨-, rfl⟩, rfl⟩, rfl⟩ := h
  rfl

theorem declareGlobal_moves (h : (declareGlobal name type).Grants e a ms) :
    a.isRegister = false ∧ essence ms = [] := by
  rw [declareGlobal, grants_bind] at h
  obtain ⟨_, _, ht, _, h, rfl⟩ := h
  rw [grants_bind] at h
  obtain ⟨_, _, hc, _, h, rfl⟩ := h
  simp only [move, grants_read_bind, grants_moves_bind, grants_pure] at h
  obtain ⟨_, ⟨rfl, rfl⟩, rfl⟩ := h
  rw [essence_append, essence_append, checkType_quiet ht, claimSymbol_quiet hc]
  exact ⟨rfl, rfl⟩

theorem declareConst_moves {lit : Value} (h : (declareConst name lit type).Grants e a ms) :
    a.isRegister = false ∧ essence ms = [] := by
  simp only [declareConst, grants_ite, grants_throw_bind, grants_read_bind, if_false_left] at h
  obtain ⟨-, h⟩ := h
  rw [grants_bind] at h
  obtain ⟨_, _, ht, _, h, rfl⟩ := h
  rw [grants_bind] at h
  obtain ⟨_, _, hc, _, h, rfl⟩ := h
  simp only [move, grants_moves_bind, grants_pure] at h
  obtain ⟨_, ⟨rfl, rfl⟩, rfl⟩ := h
  rw [essence_append, essence_append, checkType_quiet ht, claimSymbol_quiet hc]
  exact ⟨rfl, rfl⟩

/-! ## Registers -/

theorem allocRegAs_moves {temp : Bool} (h : (allocRegAs type temp).Grants e a ms) :
    ∃ r, e.regs.Hands (TypePolicy.regClass type) r ∧ a = .ofRegister r type temp ∧
      essence ms = [.take (TypePolicy.regClass type)] := by
  simp only [allocRegAs, warn, debug, move, grants_read_bind] at h
  split at h
  · exact (grants_throw.mp h).elim
  · rename_i alloc g ha
    refine ⟨alloc.reg, ⟨alloc.fresh, g, ha⟩, ?_⟩
    simp only [grants_moves_bind, grants_ite, grants_pure] at h
    obtain ⟨_, h, rfl⟩ := h
    split at h
    · obtain ⟨_, ⟨_, ⟨rfl, rfl⟩, rfl⟩, rfl⟩ := h
      exact ⟨rfl, rfl⟩
    · obtain ⟨_, ⟨rfl, rfl⟩, rfl⟩ := h
      exact ⟨rfl, rfl⟩

/-- A release is always granted, and gives back a temporary that is in use. -/
theorem release_moves (v : Value) (e : Engine) :
    ∃ ms, (release v).Grants e () ms ∧ essence ms =
      if v.isRegister ∧ v.temp ∧ e.regs.uses (TypePolicy.regClass v.type) v.name then
        [.give (TypePolicy.regClass v.type) v.name] else [] := by
  simp only [release, debug, move, grants_read_bind]
  split
  · exact ⟨_, grants_moves_bind.mpr ⟨_, grants_moves.mpr rfl, rfl⟩, rfl⟩
  · exact ⟨[], grants_pure.mpr ⟨rfl, rfl⟩, rfl⟩

theorem release_essence (v : Value) (e : Engine) :
    essence (release v e).2 =
      if v.isRegister ∧ v.temp ∧ e.regs.uses (TypePolicy.regClass v.type) v.name then
        [.give (TypePolicy.regClass v.type) v.name] else [] := by
  obtain ⟨ms, h, hms⟩ := release_moves v e
  rw [Grants] at h
  rw [h]
  exact hms

/-- Instructions that work with a scratch register: it is taken, and given back after
them. -/
theorem withTemp_moves {k : Value → List Instr}
    (h : (withTemp type fun tmp => instrs (k tmp)).Grants e u ms) :
    ∃ r, e.regs.Hands (TypePolicy.regClass type) r ∧
      essence ms = Move.take (TypePolicy.regClass type) ::
        (k (.ofRegister r type true)).map .instr ++ [Move.give (TypePolicy.regClass type) r] := by
  rw [withTemp, grants_bind] at h
  obtain ⟨tmp, ms₁, halloc, _, h, rfl⟩ := h
  obtain ⟨r, hr, rfl, hms₁⟩ := allocRegAs_moves halloc
  rw [grants_finishing] at h
  obtain ⟨_, his, rfl⟩ := h
  rw [grants_instrs] at his
  subst his
  -- Instructions do not touch the registers, so the scratch register is still in use.
  have huses : ((e.makeAll ms₁).makeAll ((k (.ofRegister r type true)).map .instr)).regs.uses
      (TypePolicy.regClass type) r := by
    rw [Engine.regs_makeAll_instrs, Engine.regs_makeAll, hms₁]
    exact e.uses_take hr
  refine ⟨r, hr, ?_⟩
  rw [essence_append, essence_append, hms₁, essence_instrs, release_essence,
    if_pos ⟨rfl, rfl, huses⟩]
  rfl

theorem loadValue_moves (h : (loadValue v type).Grants e a ms) :
    (v.isRegister ∧ a = v ∧ ms = []) ∨
      v.isRegister = false ∧ ∃ r w type', e.regs.Hands (TypePolicy.regClass type') r ∧
        a = .ofRegister r type' true ∧
        essence ms = [.take (TypePolicy.regClass type'), .instr (e.target.load r w type')] := by
  simp only [loadValue, grants_ite, grants_pure, grants_throw, grants_read_bind] at h
  split at h
  case isTrue hv => exact .inl ⟨hv, h⟩
  case isFalse hv =>
    split at h
    · exact h.elim
    · rw [grants_bind] at h
      obtain ⟨w, _, hw, _, h, rfl⟩ := h
      have hq := materialize_quiet hw
      rw [grants_bind] at h
      obtain ⟨_, _, halloc, _, h, rfl⟩ := h
      obtain ⟨r, hr, rfl, hms⟩ := allocRegAs_moves halloc
      rw [e.regs_makeAll_of_quiet hq] at hr
      simp only [instr, move, grants_moves_bind, grants_pure] at h
      obtain ⟨_, ⟨rfl, rfl⟩, rfl⟩ := h
      refine .inr ⟨by simpa using hv, r, w, _, hr, rfl, ?_⟩
      rw [essence_append, essence_append, hq, hms]
      rfl

/-! ## Calls -/

theorem regClass_wordType (t : Target) : TypePolicy.regClass t.wordType = .int := by
  cases t <;> decide

theorem pushThroughTemp_moves (h : (pushThroughTemp v type).Grants e u ms) :
    ∃ r, e.regs.Hands .int r ∧
      essence ms = [.take .int, .instr (e.target.intLoad r v type), .instr (.push r), .give .int r] := by
  rw [pushThroughTemp, grants_read_bind] at h
  have hms := withTemp_moves h
  rwa [regClass_wordType] at hms

theorem pushLabel_moves {label : Text} (h : (pushLabel label).Grants e u ms) :
    ∃ r, e.regs.Hands .int r ∧
      essence ms = [.take .int, .instr (e.target.labelLoad r label), .instr (.push r), .give .int r] := by
  rw [pushLabel, grants_read_bind] at h
  have hms := withTemp_moves h
  rwa [regClass_wordType] at hms

/-- An argument is pushed by instructions, with at most a scratch register around them. -/
theorem pushArg_moves (h : (pushArg v).Grants e u ms) :
    (∃ is : List Instr, essence ms = is.map .instr) ∨
      ∃ r, e.regs.Hands .int r ∧ ∃ is : List Instr,
        essence ms = Move.take .int :: is.map .instr ++ [Move.give .int r] := by
  simp only [pushArg, grants_read_bind, grants_ite, grants_instrs] at h
  split at h
  · exact .inl ⟨_, by rw [h, essence_instrs]⟩
  · split at h
    · exact .inl ⟨_, by rw [h, essence_instrs]⟩
    · split at h
      · rw [grants_bind] at h
        obtain ⟨label, _, hl, _, h, rfl⟩ := h
        have hq := stringLabel_quiet hl
        obtain ⟨r, hr, hms⟩ := pushLabel_moves h
        rw [e.regs_makeAll_of_quiet hq] at hr
        rw [e.makeAll_target] at hms
        refine .inr ⟨r, hr, [e.target.labelLoad r label, .push r], ?_⟩
        rw [essence_append, hq, hms]
        rfl
      · rw [grants_bind] at h
        obtain ⟨w, _, hw, _, h, rfl⟩ := h
        have hq := materialize_quiet hw
        obtain ⟨r, hr, hms⟩ := pushThroughTemp_moves h
        rw [e.regs_makeAll_of_quiet hq] at hr
        rw [e.makeAll_target] at hms
        refine .inr ⟨r, hr, [e.target.intLoad r w (e.target.typeOrWord v.type), .push r], ?_⟩
        rw [essence_append, hq, hms]
        rfl

/-- A call pushes its arguments, and takes a register for the result after it. -/
theorem callAs_moves {args : List Value} (h : (callAs name args type).Grants e a ms) :
    ∃ ms₁ r, (pushArgs name 0 args).Grants e () ms₁ ∧
      (e.makeAll ms₁).regs.Hands (TypePolicy.regClass type) r ∧ a = .ofRegister r type true ∧
      essence ms = essence ms₁ ++ (e.target.callThenDrop name args.length).map .instr ++
        [Move.take (TypePolicy.regClass type), Move.instr (e.target.resultMove r type)] := by
  rw [callAs, grants_read_bind, grants_bind] at h
  obtain ⟨⟨⟩, ms₁, hargs, _, h, rfl⟩ := h
  simp only [instrs, grants_moves_bind] at h
  obtain ⟨_, h, rfl⟩ := h
  rw [grants_bind] at h
  obtain ⟨_, ms₂, halloc, _, h, rfl⟩ := h
  obtain ⟨r, hr, rfl, hms₂⟩ := allocRegAs_moves halloc
  simp only [instr, move, grants_moves_bind, grants_pure] at h
  obtain ⟨_, ⟨rfl, rfl⟩, rfl⟩ := h
  rw [Engine.regs_makeAll_instrs] at hr
  refine ⟨ms₁, r, hargs, hr, rfl, ?_⟩
  rw [essence_append, essence_append, essence_append, essence_instrs, hms₂, List.append_assoc]
  rfl

/-! ## Casts -/

theorem intToInt_moves (h : (intToInt v type).Grants e a ms) :
    ∃ r, e.regs.Hands (TypePolicy.regClass type) r ∧ a = .ofRegister r type true ∧
      essence ms = [.take (TypePolicy.regClass type), .instr (e.target.intToInt r v type)] := by
  rw [intToInt, grants_read_bind, grants_bind] at h
  obtain ⟨_, _, halloc, _, h, rfl⟩ := h
  obtain ⟨r, hr, rfl, hms⟩ := allocRegAs_moves halloc
  simp only [instr, move, grants_moves_bind, grants_pure] at h
  obtain ⟨_, ⟨rfl, rfl⟩, rfl⟩ := h
  refine ⟨r, hr, rfl, ?_⟩
  rw [essence_append, hms]
  rfl

theorem floatToFloat_moves (h : (floatToFloat v type).Grants e a ms) :
    ∃ r w, e.regs.Hands (TypePolicy.regClass type) r ∧ a = .ofRegister r type true ∧
      essence ms = [.take (TypePolicy.regClass type), .instr (e.target.floatToFloat r w type)] := by
  rw [floatToFloat, grants_read_bind, grants_bind] at h
  obtain ⟨_, _, halloc, _, h, rfl⟩ := h
  obtain ⟨r, hr, rfl, hms⟩ := allocRegAs_moves halloc
  rw [grants_bind] at h
  obtain ⟨w, _, hw, _, h, rfl⟩ := h
  simp only [instr, move, grants_moves_bind, grants_pure] at h
  obtain ⟨_, ⟨rfl, rfl⟩, rfl⟩ := h
  refine ⟨r, w, hr, rfl, ?_⟩
  rw [essence_append, essence_append, hms, materialize_quiet hw]
  rfl

theorem intToFloat_moves (h : (intToFloat v type).Grants e a ms) :
    ∃ r, e.regs.Hands (TypePolicy.regClass type) r ∧ a = .ofRegister r type true ∧
      ((v.isRegister ∧ essence ms =
          .take (TypePolicy.regClass type) :: (e.target.regToFloat r v type).map .instr) ∨
        v.isRegister = false ∧
        ∃ tmp, (e.take (TypePolicy.regClass type)).regs.Hands .int tmp ∧
          essence ms = Move.take (TypePolicy.regClass type) :: Move.take .int ::
            (e.target.operandToFloat r tmp v type).map .instr ++ [Move.give .int tmp]) := by
  rw [intToFloat, grants_read_bind, grants_bind] at h
  obtain ⟨_, ms₁, halloc, _, h, rfl⟩ := h
  obtain ⟨r, hr, rfl, hms⟩ := allocRegAs_moves halloc
  refine ⟨r, hr, ?_⟩
  simp only [grants_ite] at h
  split at h
  case isTrue hv =>
    simp only [instrs, grants_moves_bind, grants_pure] at h
    obtain ⟨_, ⟨rfl, rfl⟩, rfl⟩ := h
    refine ⟨rfl, .inl ⟨hv, ?_⟩⟩
    rw [essence_append, essence_append, hms, essence_instrs]
    simp [Value.ofRegister]
  case isFalse hv =>
    rw [grants_bind] at h
    obtain ⟨_, _, htmp, _, h, rfl⟩ := h
    obtain ⟨rfl, rfl⟩ := grants_pure.mp h
    obtain ⟨tmp, htake, hrest⟩ := withTemp_moves htmp
    rw [regClass_wordType, Engine.regs_makeAll, hms] at htake
    refine ⟨rfl, .inr ⟨by simpa using hv, tmp, htake, ?_⟩⟩
    rw [essence_append, essence_append, hms, hrest, regClass_wordType]
    simp [Value.ofRegister]

theorem floatToInt_moves (h : (floatToInt v type).Grants e a ms) :
    ∃ r, e.regs.Hands (TypePolicy.regClass type) r ∧ a = .ofRegister r type true ∧
      (essence ms = [.take (TypePolicy.regClass type),
          .instr (e.target.floatToInt r v.name v.type type)] ∨
        ∃ c tmp w srcType, (e.take (TypePolicy.regClass type)).regs.Hands c tmp ∧
          c = TypePolicy.regClass srcType ∧
          essence ms = [.take (TypePolicy.regClass type), .take c,
            .instr (e.target.load tmp w srcType),
            .instr (e.target.floatToInt r tmp srcType type), .give c tmp]) := by
  rw [floatToInt, grants_read_bind, grants_bind] at h
  obtain ⟨_, ms₁, halloc, _, h, rfl⟩ := h
  obtain ⟨r, hr, rfl, hms⟩ := allocRegAs_moves halloc
  refine ⟨r, hr, ?_⟩
  simp only [grants_ite] at h
  split at h
  · simp only [instr, move, grants_moves_bind, grants_pure] at h
    obtain ⟨_, ⟨rfl, rfl⟩, rfl⟩ := h
    refine ⟨rfl, .inl ?_⟩
    rw [essence_append, hms]
    rfl
  · rw [grants_bind] at h
    obtain ⟨w, ms₂, hw, _, h, rfl⟩ := h
    have hq := materialize_quiet hw
    rw [grants_bind] at h
    obtain ⟨_, _, htmp, _, h, rfl⟩ := h
    obtain ⟨rfl, rfl⟩ := grants_pure.mp h
    obtain ⟨tmp, htake, hrest⟩ := withTemp_moves htmp
    rw [Engine.regs_makeAll_of_quiet _ hq, Engine.regs_makeAll, hms] at htake
    refine ⟨rfl, .inr ⟨_, tmp, w, w.type, htake, rfl, ?_⟩⟩
    rw [essence_append, essence_append, essence_append, hms, hq, hrest]
    rfl

/-! ## Printing -/

theorem needPrintInt_quiet (h : needPrintInt.Grants e u ms) : essence ms = [] := by
  simp only [needPrintInt, addBuiltin, debug, move, grants_read_bind, grants_ite, grants_pure,
    grants_moves_bind, grants_moves] at h
  split at h
  · rw [h.2]; rfl
  · obtain ⟨_, ⟨_, rfl, rfl⟩, rfl⟩ := h
    rfl

theorem needPrintFloat_quiet (h : needPrintFloat.Grants e u ms) : essence ms = [] := by
  simp only [needPrintFloat, addBuiltin, debug, move, grants_read_bind, grants_ite, grants_pure] at h
  split at h
  · rw [h.2]; rfl
  · rw [grants_bind] at h
    obtain ⟨_, _, hint, _, h, rfl⟩ := h
    simp only [grants_moves_bind, grants_moves] at h
    obtain ⟨_, ⟨_, rfl, rfl⟩, rfl⟩ := h
    rw [essence_append, needPrintInt_quiet hint]
    rfl

/-- The code that writes a text, with the name that was made up for the text. -/
theorem printString_named {s : Text} (h : (printString s).Grants e u ms) :
    essence ms =
      ((e.target.writeClobbers.filter (e.regs.uses .int)).map Instr.push ++
        e.target.writeCall (generatedName "str_print" e.printBuffers) (s.length + 1) ++
        (e.target.writeClobbers.filter (e.regs.uses .int)).reverse.map Instr.pop).map .instr := by
  simp only [printString, addGenerated, move, grants_read_bind, grants_moves_bind,
    grants_instrs] at h
  obtain ⟨_, ⟨_, rfl, rfl⟩, rfl⟩ := h
  rw [essence_append, essence_append, essence_instrs]
  rfl

/-- Writing a text keeps the registers in use that it overwrites. -/
theorem printString_moves {s : Text} (h : (printString s).Grants e u ms) :
    ∃ label, essence ms =
      ((e.target.writeClobbers.filter (e.regs.uses .int)).map Instr.push ++
        e.target.writeCall label (s.length + 1) ++
        (e.target.writeClobbers.filter (e.regs.uses .int)).reverse.map Instr.pop).map .instr :=
  ⟨_, printString_named h⟩

theorem printInt_moves (h : (printInt v).Grants e u ms) :
    (v.isRegister ∧ essence ms = (e.target.widening v ++ Instr.push v.name ::
        e.target.callThenDrop "print_int" 1).map .instr) ∨
      v.isRegister = false ∧ ∃ r type, e.regs.Hands .int r ∧
        essence ms = [Move.take .int, Move.instr (e.target.intLoad r v type), Move.instr (.push r),
          Move.give .int r] ++ (e.target.callThenDrop "print_int" 1).map .instr := by
  rw [printInt, grants_bind] at h
  obtain ⟨_, _, hneed, _, h, rfl⟩ := h
  have hq := needPrintInt_quiet hneed
  simp only [grants_read_bind, grants_ite, e.makeAll_target] at h
  split at h
  case isTrue hv =>
    simp only [instrs, grants_moves_bind, grants_moves] at h
    obtain ⟨_, rfl, rfl⟩ := h
    refine .inl ⟨hv, ?_⟩
    rw [essence_append, hq, essence_append, essence_instrs, essence_instrs]
    simp
  case isFalse hv =>
    rw [grants_bind] at h
    obtain ⟨_, _, hpush, _, h, rfl⟩ := h
    obtain ⟨r, hr, hms⟩ := pushThroughTemp_moves hpush
    rw [e.regs_makeAll_of_quiet hq] at hr
    rw [e.makeAll_target] at hms
    rw [grants_instrs] at h
    refine .inr ⟨by simpa using hv, r, e.target.typeOrWord v.type, hr, ?_⟩
    rw [essence_append, essence_append, hq, hms, h, essence_instrs]
    rfl

theorem printFloat_moves (h : (printFloat v).Grants e u ms) :
    (∃ reg, essence ms = (e.target.singlePush reg ++
        [Instr.mk .call [.sym "print_float"], e.target.drop 8]).map .instr) ∨
      ∃ r w type, e.regs.Hands .float r ∧
        essence ms = Move.take .float ::
          (e.target.narrow r w type :: e.target.singlePush r).map .instr ++ [Move.give .float r] ++
          [Move.instr (.mk .call [.sym "print_float"]), Move.instr (e.target.drop 8)] := by
  rw [printFloat, grants_bind] at h
  obtain ⟨_, ms₁, hneed, _, h, rfl⟩ := h
  have hq := needPrintFloat_quiet hneed
  rw [grants_read_bind, grants_bind] at h
  obtain ⟨w, ms₂, hw, _, h, rfl⟩ := h
  have hqw := materialize_quiet hw
  simp only [grants_ite, e.makeAll_target] at h
  split at h
  · simp only [instrs, grants_moves_bind, grants_moves] at h
    obtain ⟨_, rfl, rfl⟩ := h
    refine .inl ⟨w.name, ?_⟩
    rw [essence_append, essence_append, essence_append, hq, hqw, essence_instrs, essence_instrs]
    simp
  · rw [grants_bind] at h
    obtain ⟨_, _, htmp, _, h, rfl⟩ := h
    obtain ⟨r, hr, hms⟩ := withTemp_moves htmp
    have hfloat : TypePolicy.regClass "float" = .float := by decide
    rw [hfloat, Engine.regs_makeAll_of_quiet _ hqw, e.regs_makeAll_of_quiet hq] at hr
    rw [grants_instrs] at h
    refine .inr ⟨r, w, v.floatType, hr, ?_⟩
    rw [essence_append, essence_append, essence_append, hq, hqw, hms, hfloat, h, essence_instrs]
    simp [Value.ofRegister]

/-! ## Functions -/

variable {f : FunctionRef} {g : Frame}

theorem openFrame_granted (h : (openFrame f).Grants e g ms) :
    ms = [] ∧ e.current = some g ∧ g.id = f.id := by
  simp only [openFrame, grants_read_bind] at h
  split at h
  · rename_i g' hc
    simp only [grants_ite, grants_pure, grants_throw] at h
    split at h
    case isTrue hid => exact ⟨h.2, h.1 ▸ hc, h.1 ▸ hid⟩
    case isFalse => exact h.elim
  · exact (grants_throw.mp h).elim

theorem checkParams_quiet {params : List Param} {words : Param → EmitError → EmitError}
    (h : (params.forM fun p => (checkType p.type).rewording (words p)).Grants e u ms) :
    essence ms = [] := by
  induction params generalizing e ms with
  | nil =>
    rw [(grants_pure.mp h).2]
    rfl
  | cons p params ih =>
    obtain ⟨_, _, hp, _, hrest, rfl⟩ := grants_bind.mp h
    rw [essence_append, checkType_quiet (grants_rewording.mp hp), ih hrest]
    rfl

theorem beginFunction_moves {params : List Param} (h : (beginFunction name params).Grants e f ms) :
    e.current = none ∧ f = ⟨e.nextId, name⟩ ∧ essence ms = [.enter name params] := by
  simp only [beginFunction, debug, move, grants_read_bind] at h
  split at h
  · exact (grants_throw_bind.mp h).elim
  · rename_i hnone
    rw [grants_bind] at h
    obtain ⟨_, ms₁, hclaim, _, h, rfl⟩ := h
    rw [grants_bind] at h
    obtain ⟨_, ms₂, hparams, _, h, rfl⟩ := h
    have hq₁ := claimSymbol_quiet hclaim
    have hq₂ := checkParams_quiet hparams
    simp only [grants_read_bind, grants_moves_bind, grants_pure] at h
    obtain ⟨_, ⟨_, ⟨rfl, rfl⟩, rfl⟩, rfl⟩ := h
    refine ⟨Option.eq_none_iff_forall_ne_some.mpr hnone, ?_, ?_⟩
    · -- The number of the function is read after the checks, which are quiet.
      have hid : ((e.makeAll ms₁).makeAll ms₂).nextId = e.nextId := by
        show ((e.makeAll ms₁).makeAll ms₂).core.nextId = e.core.nextId
        rw [Engine.core_makeAll_of_quiet _ hq₂, Engine.core_makeAll_of_quiet _ hq₁]
      rw [hid]
    · rw [essence_append, essence_append, hq₁, hq₂]
      rfl

theorem declareLocal_moves (h : (declareLocal f name type).Grants e a ms) :
    a.isRegister = false ∧ essence ms = [.addLocal name type] := by
  rw [declareLocal, grants_bind] at h
  obtain ⟨g, _, hg, _, h, rfl⟩ := h
  rw [(openFrame_granted hg).1]
  rw [grants_bind] at h
  obtain ⟨_, _, ht, _, h, rfl⟩ := h
  simp only [move, grants_read_bind, grants_ite, grants_throw_bind, grants_moves_bind, grants_pure,
    if_false_left] at h
  obtain ⟨-, _, ⟨rfl, rfl⟩, rfl⟩ := h
  rw [List.nil_append, essence_append, checkType_quiet ht]
  exact ⟨rfl, rfl⟩

/-- A parameter that was fetched before is found again; the first fetch takes a register
for it. -/
theorem param_moves (h : (param f name).Grants e a ms) :
    ∃ g, e.current = some g ∧ g.id = f.id ∧
      ((g.cached.get? name = some a ∧ ms = []) ∨
        g.cached.get? name = none ∧ ∃ r type slot, e.regs.Hands (TypePolicy.regClass type) r ∧
          a = .ofRegister r type false ∧
          essence ms = [.take (TypePolicy.regClass type), .instr (e.target.fetch r type slot),
            .cache name a]) := by
  rw [param, grants_bind] at h
  obtain ⟨g, _, hg, _, h, rfl⟩ := h
  obtain ⟨rfl, hcur, hid⟩ := openFrame_granted hg
  refine ⟨g, hcur, hid, ?_⟩
  rw [Engine.makeAll_nil] at h
  split at h
  · rename_i r hr
    obtain ⟨rfl, rfl⟩ := grants_pure.mp h
    exact .inl ⟨hr, rfl⟩
  · rename_i hnone
    split at h
    · exact (grants_throw.mp h).elim
    · rename_i p index _
      rw [grants_read_bind, grants_bind] at h
      obtain ⟨_, _, halloc, _, h, rfl⟩ := h
      obtain ⟨r, hr, rfl, hms⟩ := allocRegAs_moves halloc
      simp only [instr, move, grants_moves_bind, grants_pure] at h
      obtain ⟨_, ⟨_, ⟨rfl, rfl⟩, rfl⟩, rfl⟩ := h
      refine .inr ⟨Option.eq_none_iff_forall_ne_some.mpr hnone, r, p.type,
        e.target.paramSlot index, hr, rfl, ?_⟩
      rw [List.nil_append, essence_append, hms]
      rfl

theorem returnValue_moves (h : (returnValue f v).Grants e u ms) :
    ∃ w, essence ms = [.instr (e.target.floatReturn w)] ∨
      essence ms = [.instr (e.target.intReturn w)] := by
  rw [returnValue, grants_bind] at h
  obtain ⟨g, _, hg, _, h, rfl⟩ := h
  rw [(openFrame_granted hg).1] at h ⊢
  simp only [grants_read_bind, Engine.makeAll_nil, grants_ite, grants_throw, grants_instr] at h
  split at h
  · rw [grants_bind] at h
    obtain ⟨w, _, hw, _, h, rfl⟩ := h
    refine ⟨w, .inl ?_⟩
    rw [List.nil_append, essence_append, materialize_quiet hw, grants_instr.mp h]
    rfl
  · split at h
    · exact h.elim
    · exact ⟨v, .inr (by rw [h]; rfl)⟩

theorem endFunction_moves (h : (endFunction f).Grants e u ms) : essence ms = [.leave] := by
  rw [endFunction, grants_bind] at h
  obtain ⟨g, _, hg, _, h, rfl⟩ := h
  rw [(openFrame_granted hg).1]
  simp only [debug, move, grants_moves_bind, grants_moves] at h
  obtain ⟨_, rfl, rfl⟩ := h
  rfl

theorem finalize_quiet {t : Text} (h : finalize.Grants e t ms) : essence ms = [] := by
  simp only [finalize, warn, move, grants_read_bind] at h
  split at h
  · simp only [grants_moves_bind, grants_pure] at h
    obtain ⟨_, ⟨-, rfl⟩, rfl⟩ := h
    rfl
  · simp only [grants_pure] at h
    rw [h.2]
    rfl

end Assembly.Emit
