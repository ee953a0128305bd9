import Assembly.Proofs.Call.Arguments

/-!
# The code of casts

What a granted cast emits: the instructions for the classes of the two types, with the result in
the register that the file hands out next.
-/

namespace Assembly

open Move Emit

/-- The code that takes a value to a register of a type, by the classes of the two types.  The
value has its type, or that of a word if it has none. -/
inductive CastCode (t : Target) (f : RegisterFile) (v : Value) (type r : Text) : List Instr → Prop
  | integer (hsrc : v.isFloat = false) (hdst : TypePolicy.isFloat type = false) :
    CastCode t f v type r [t.intToInt r v type]
  | widened (hsrc : v.isFloat = false) (hdst : TypePolicy.isFloat type = true)
    (hreg : v.isRegister = true) : CastCode t f v type r (t.regToFloat r v type)
  | loaded {tmp : Text} (hsrc : v.isFloat = false) (hdst : TypePolicy.isFloat type = true)
    (hreg : v.isRegister = false) (htmp : tmp ∈ f.pool .int) :
    CastCode t f v type r (t.operandToFloat r tmp v type)
  | rounded (hsrc : v.isFloat = true) : CastCode t f v type r [t.floatToInt r v.name v.type type]
  | loadedRounded {tmp srcType : Text} (w : Value) (hsrc : v.isFloat = true)
    (htmp : tmp ∈ f.pool (TypePolicy.regClass srcType)) :
    CastCode t f v type r [t.load tmp w srcType, t.floatToInt r tmp srcType type]
  | float (w : Value) (hsrc : v.isFloat = true) : CastCode t f v type r [t.floatToFloat r w type]

variable {e : Engine} {ms : List Move} {a v : Value} {type : Text}

theorem pool_take (e : Engine) (c d : RegClass) : (e.take c).regs.pool d = e.regs.pool d := by
  have hkind : (e.take c).regs.kind = e.regs.kind := e.makeAll_regs_kind [.take c]
  have htarget : (e.take c).regs.target = e.regs.target := congrArg Prod.fst hkind
  cases d with
  | int => exact congrArg Target.intPool htarget
  | float => rfl

theorem regClass_of_isFloat (h : TypePolicy.isFloat type = true) :
    TypePolicy.regClass type = .float := by
  rw [TypePolicy.regClass, h]
  rfl

theorem regClass_of_not_isFloat (h : TypePolicy.isFloat type = false) :
    TypePolicy.regClass type = .int := by
  rw [TypePolicy.regClass, h]
  rfl

theorem convert_code (h : Emit.Grants (match TypePolicy.regClass v.type, TypePolicy.regClass type with
      | .int, .int => intToInt v type
      | .int, .float => intToFloat v type
      | .float, .int => floatToInt v type
      | .float, .float => floatToFloat v type) e a ms) :
    ∃ r is, e.regs.Hands (TypePolicy.regClass type) r ∧ a = .ofRegister r type true ∧
      CastCode e.target e.regs v type r is ∧ ms.flatMap lines = is.map .instr := by
  cases hsrc : TypePolicy.isFloat v.type <;> cases hdst : TypePolicy.isFloat type
  · rw [regClass_of_not_isFloat hsrc, regClass_of_not_isFloat hdst] at h
    obtain ⟨r, hr, ha, hms⟩ := intToInt_moves h
    refine ⟨r, _, hr, ha, .integer hsrc hdst, ?_⟩
    rw [← flatMap_lines_essence, hms]
    rfl
  · rw [regClass_of_not_isFloat hsrc, regClass_of_isFloat hdst] at h
    obtain ⟨r, hr, ha, ⟨hreg, hms⟩ | ⟨hreg, tmp, htmp, hms⟩⟩ := intToFloat_moves h
    · refine ⟨r, _, hr, ha, .widened hsrc hdst hreg, ?_⟩
      rw [← flatMap_lines_essence, hms, List.flatMap_cons, flatMap_lines_instrs]
      rfl
    · refine ⟨r, _, hr, ha, .loaded hsrc hdst hreg (pool_take e _ _ ▸ htmp.mem_pool), ?_⟩
      rw [← flatMap_lines_essence, hms, List.flatMap_append, List.flatMap_cons, List.flatMap_cons,
        flatMap_lines_instrs]
      simp [Move.lines]
  · rw [regClass_of_isFloat hsrc, regClass_of_not_isFloat hdst] at h
    obtain ⟨r, hr, ha, hms | ⟨c, tmp, w, srcType, htmp, rfl, hms⟩⟩ := floatToInt_moves h
    · refine ⟨r, _, hr, ha, .rounded hsrc, ?_⟩
      rw [← flatMap_lines_essence, hms]
      rfl
    · refine ⟨r, _, hr, ha, .loadedRounded w hsrc (pool_take e _ _ ▸ htmp.mem_pool), ?_⟩
      rw [← flatMap_lines_essence, hms]
      rfl
  · rw [regClass_of_isFloat hsrc, regClass_of_isFloat hdst] at h
    obtain ⟨r, w, hr, ha, hms⟩ := floatToFloat_moves h
    refine ⟨r, _, hr, ha, .float w hsrc, ?_⟩
    rw [← flatMap_lines_essence, hms]
    rfl

theorem cast_code (h : (Emit.cast v type).Grants e a ms) :
    ∃ r is, e.regs.Hands (TypePolicy.regClass type) r ∧ a = .ofRegister r type true ∧
      CastCode e.target e.regs (v.withType (e.target.typeOrWord v.type)) type r is ∧
      ms.flatMap lines = is.map .instr := by
  simp only [Emit.cast, grants_ite, grants_throw, if_false_left] at h
  obtain ⟨-, h⟩ := h
  rw [grants_bind] at h
  obtain ⟨_, ms₁, hcheck, ms₂, h, rfl⟩ := h
  have hq := checkType_quiet hcheck
  rw [grants_read_bind, e.makeAll_target] at h
  obtain ⟨r, is, hr, ha, hcode, hlines⟩ := convert_code h
  rw [e.regs_makeAll_of_quiet hq] at hr hcode
  rw [e.makeAll_target] at hcode
  refine ⟨r, is, hr, ha, hcode, ?_⟩
  rw [← flatMap_lines_essence, essence_append, hq, List.nil_append, flatMap_lines_essence, hlines]

/-! ## In a run -/

namespace Engine

variable (t : Target) (strict : Bool) (qs : List Request)

theorem pool_int : ((Engine.new t strict).serveAll qs).regs.pool .int = t.intPool := by
  have htarget := Engine.regs_target_serveAll (e := Engine.new t strict) rfl qs
  rw [Engine.serveAll_target] at htarget
  exact congrArg Target.intPool htarget

theorem body_cast (h : ((Engine.new t strict).serveAll qs).reply (.cast v type) = .ok (.value a)) :
    ∃ r is, ((Engine.new t strict).serveAll qs).regs.Hands (TypePolicy.regClass type) r ∧
      a = .ofRegister r type true ∧
      CastCode t ((Engine.new t strict).serveAll qs).regs (v.withType (t.typeOrWord v.type)) type r
        is ∧
      (((Engine.new t strict).serveAll qs).serve (.cast v type)).body =
        ((Engine.new t strict).serveAll qs).body ++ is.map .instr := by
  have hbody := Engine.body_serve (Chronicle.describes_of t strict qs) (q := .cast v type) rfl
  have hgrant : (Request.cast v type).emit.Grants _ (.value a) _ := Prod.ext h rfl
  obtain ⟨_, hcast, ha⟩ := grants_map.mp hgrant
  cases ha
  obtain ⟨r, is, hr, ha, hcode, hlines⟩ := cast_code hcast
  rw [Engine.serveAll_target] at hcode
  exact ⟨r, is, hr, ha, hcode, hbody.trans (congrArg (_ ++ ·) hlines)⟩

end Engine

end Assembly
