import Assembly.Proofs.Cast.Code
import Assembly.Proofs.Engine.Confined
import Assembly.Proofs.Machine.Width
import Assembly.Proofs.Symbol.Phase

/-!
# Casts within a class

A cast between integer types of one size, and a cast between floating types, is one
instruction: a plain move if the sizes agree, and otherwise the conversion between single
and double precision.  There is no third case, because a floating type has four or eight
bytes, whatever its name suggests.

`cast_within_class` says what becomes of the whole engine.  Besides the instruction there is
at most a constant, for a floating literal, which cannot be an operand.
-/

namespace Assembly

open Move Emit

/-- The instructions between floating types, with the bytes of the source and of the result. -/
def floatMoves : List (Nat × Nat × Mnemonic) :=
  [(4, 4, .movss), (8, 8, .movsd), (4, 8, .cvtss2sd), (8, 4, .cvtsd2ss)]

namespace Engine

/-- The constants that are stored for a value of a type before it is used: one for a floating
literal. -/
def constantsFor (e : Engine) (v : Value) (type : Text) : List Datum :=
  if v.kind = .number ∧ TypePolicy.isFloat type = true then
    [⟨generatedName "float_lit" e.literals, e.target.directive type,
      .number (floatSpelling v.text)⟩]
  else []

/-- What a cast within a class reads: of an integer register the bytes of the type, of a floating
literal its constant, and otherwise the value as it is. -/
def castSource (e : Engine) (v : Value) (type : Text) : Operand :=
  if TypePolicy.isFloat type = true then
    if v.kind = .number then .direct (generatedName "float_lit" e.literals) else v.operand
  else if v.isRegister = true then .reg (e.target.resize v.name (e.target.typeSize type))
  else v.operand

end Engine

/-! ## Single instructions -/

namespace Target

variable (t : Target) {v w : Value} {type : Text}

theorem intToInt_of_size (r : Text) (h : t.typeSize v.type = t.typeSize type) :
    t.intToInt r v type = ⟨.mov, [.reg (t.resize r (t.typeSize type)),
      if v.isRegister = true then .reg (t.resize v.name (t.typeSize type)) else v.operand]⟩ := by
  simp only [intToInt]
  by_cases hnumber : v.kind = .number
  · simp [Value.isRegister, Value.operand, hnumber]
  · rw [if_neg hnumber, if_neg (by omega)]
    split <;> rfl

theorem floatToFloat_of_isFloat (r : Text) (hsrc : w.isFloat = true)
    (hdst : TypePolicy.isFloat type = true) :
    ∃ m, t.floatToFloat r w type = ⟨m, [.reg r, w.operand]⟩ ∧
      (t.typeSize w.type, t.typeSize type, m) ∈ floatMoves := by
  simp only [floatToFloat, floatMove]
  rcases t.typeSize_of_isFloat hsrc with hs | hs <;>
    rcases t.typeSize_of_isFloat hdst with hd | hd <;>
    rw [hs, hd] <;> refine ⟨_, rfl, ?_⟩ <;> decide

theorem resize_floatPool {r : Text} (hr : r ∈ t.floatPool) (size : Nat) : t.resize r size = r := by
  have hnone : ∀ r ∈ t.floatPool, t.aliases.lookup r = none := by
    cases t <;> decide
  rw [resize, hnone r hr]
  rfl

end Target

/-! ## Moves -/

namespace Engine

variable {e : Engine} {m : Move} {ms : List Move}

theorem stock_makeAll_of_idle (h : ∀ m ∈ ms, m.idle) : (e.makeAll ms).stock = e.stock := by
  induction ms generalizing e with
  | nil => rfl
  | cons m ms ih =>
    rw [makeAll_cons, ih fun k hk => h k (List.mem_cons_of_mem m hk), make_stock,
      Stock.note_of_idle _ _ (h m List.mem_cons_self)]

/-- Inside of a function the segment of finished functions does not change, and the entry code
only while no function is open. -/
theorem make_around (hm : m.inner) :
    (e.make m).funcs = e.funcs ∧ (e.current.isSome → (e.make m).text = e.text) := by
  cases m with
  | enter | leave => cases hm
  | instr | raw =>
    simp only [make, addLine]
    cases e.current with
    | none => exact ⟨rfl, fun h => by cases h⟩
    | some f => exact ⟨rfl, fun _ => rfl⟩
  | define => simp only [make, addSymbol]; split <;> exact ⟨rfl, fun _ => rfl⟩
  | link b => cases b <;> exact ⟨rfl, fun _ => rfl⟩
  | take c =>
    rw [make]
    obtain h | ⟨a, g, -, h | h⟩ := e.take_cases c
    · rw [h]; exact ⟨rfl, fun _ => rfl⟩
    · rw [h]; exact ⟨rfl, fun _ => rfl⟩
    · rw [h]; exact ⟨rfl, fun _ => rfl⟩
  | _ => exact ⟨rfl, fun _ => rfl⟩

theorem isSome_make (hm : m.inner) : (e.make m).current.isSome = e.current.isSome := by
  have hid := congrArg Option.isSome (id_make (e := e) hm)
  rwa [Option.isSome_map, Option.isSome_map] at hid

theorem makeAll_around (hms : ∀ m ∈ ms, m.inner) :
    (e.makeAll ms).funcs = e.funcs ∧ (e.current.isSome → (e.makeAll ms).text = e.text) := by
  induction ms generalizing e with
  | nil => exact ⟨rfl, fun _ => rfl⟩
  | cons m ms ih =>
    have hm := hms m List.mem_cons_self
    obtain ⟨hfuncs, htext⟩ := make_around (e := e) hm
    obtain ⟨ihfuncs, ihtext⟩ := ih (e := e.make m) fun k hk => hms k (List.mem_cons_of_mem m hk)
    exact ⟨ihfuncs.trans hfuncs, fun h => (ihtext ((isSome_make hm).trans h)).trans (htext h)⟩

/-- Storage after moves: the reservations and routines of before, and more data. -/
structure Stores (e e' : Engine) (ds : List Datum) : Prop where
  data : e'.data = e.data ++ ds
  bss : e'.bss = e.bss
  builtins : e'.builtins = e.builtins

theorem Stores.of_stock {e' : Engine} (h : e'.stock = e.stock) : e.Stores e' [] :=
  ⟨(congrArg Stock.data h).trans (List.append_nil _).symm, congrArg Stock.bss h,
    congrArg Stock.builtins h⟩

theorem constantsFor_congr {e' : Engine} (ht : e'.target = e.target) (h : e'.stock = e.stock)
    (v : Value) (type : Text) : e'.constantsFor v type = e.constantsFor v type := by
  have hliterals : e'.literals = e.literals := congrArg Stock.literals h
  rw [constantsFor, constantsFor, ht, hliterals]

theorem castSource_congr {e' : Engine} (ht : e'.target = e.target) (h : e'.stock = e.stock)
    (v : Value) (type : Text) : e'.castSource v type = e.castSource v type := by
  have hliterals : e'.literals = e.literals := congrArg Stock.literals h
  rw [castSource, castSource, ht, hliterals]

theorem Stores.congr {d d' e' : Engine} {ds : List Datum} (h : d.Stores d' ds)
    (hstock : d.stock = e.stock) (hstock' : e'.stock = d'.stock) : e.Stores e' ds :=
  ⟨(congrArg Stock.data hstock').trans (h.data.trans (congrArg (Stock.data · ++ ds) hstock)),
    (congrArg Stock.bss hstock').trans (h.bss.trans (congrArg Stock.bss hstock)),
    (congrArg Stock.builtins hstock').trans (h.builtins.trans (congrArg Stock.builtins hstock))⟩

end Engine

/-! ## Conversions -/

variable {e : Engine} {ms : List Move} {a v w : Value} {type : Text}

theorem checkType_stock {u : Unit} (h : (checkType type).Grants e u ms) :
    (e.makeAll ms).stock = e.stock := by
  have hms : (checkType type e).2 = ms := congrArg Prod.snd h
  exact Engine.stock_makeAll_of_idle (hms ▸ checkType_idle type e)

theorem allocReg_stock (h : (allocReg type).Grants e a ms) : (e.makeAll ms).stock = e.stock := by
  have hms : (allocRegAs type true e).2 = ms := congrArg Prod.snd h
  exact Engine.stock_makeAll_of_idle (hms ▸ allocRegAs_idle type true e)

theorem materialize_stores (h : (materialize v type).Grants e w ms) :
    e.Stores (e.makeAll ms) (e.constantsFor v type) := by
  have hms : (materialize v type e).2 = ms := congrArg Prod.snd h
  have hstock := e.makeAll_stock ms
  rw [← hms, materialize_run] at hstock ⊢
  rw [Engine.constantsFor]
  by_cases hstored : v.kind = .number ∧ TypePolicy.isFloat type = true
  · rw [if_pos hstored] at hstock ⊢
    rw [if_pos hstored]
    exact ⟨congrArg Stock.data hstock, congrArg Stock.bss hstock, congrArg Stock.builtins hstock⟩
  · rw [if_neg hstored, if_neg hstored]
    exact .of_stock rfl

theorem materialize_source (h : (materialize v v.type).Grants e w ms) (hv : v.isFloat = true)
    (htype : TypePolicy.isFloat type = true) :
    w.type = v.type ∧ w.operand = e.castSource v type := by
  have hw : (materialize v v.type e).1 = .ok w := congrArg Prod.fst h
  rw [materialize_run] at hw
  rw [Engine.castSource, if_pos htype]
  by_cases hnumber : v.kind = .number
  · rw [if_pos ⟨hnumber, hv⟩] at hw
    cases hw
    exact ⟨rfl, (if_pos hnumber).symm⟩
  · rw [if_neg fun h => hnumber h.1] at hw
    cases hw
    exact ⟨rfl, (if_neg hnumber).symm⟩

/-- What a cast within a class comes to: a register is handed out, one instruction is emitted,
and a floating literal is stored. -/
structure CastWithin (e : Engine) (v : Value) (type : Text) (a : Value) (ms : List Move)
    (i : Instr) : Prop where
  hands : ∃ r, e.regs.Hands (TypePolicy.regClass type) r ∧ a = .ofRegister r type true ∧
    i.operands = [.reg (e.target.resize r (e.target.typeSize type)), e.castSource v type]
  lines : ms.flatMap lines = [.instr i]
  stores : e.Stores (e.makeAll ms) (e.constantsFor v v.type)
  integer : TypePolicy.isFloat type = false → i.mnemonic = .mov
  float : TypePolicy.isFloat type = true →
    (e.target.typeSize v.type, e.target.typeSize type, i.mnemonic) ∈ floatMoves

theorem intToInt_within (h : (intToInt v type).Grants e a ms) (hv : v.isFloat = false)
    (htype : TypePolicy.isFloat type = false)
    (hsize : e.target.typeSize v.type = e.target.typeSize type) :
    ∃ i, CastWithin e v type a ms i := by
  have hsource : e.castSource v type = if v.isRegister = true
      then .reg (e.target.resize v.name (e.target.typeSize type)) else v.operand := by
    rw [Engine.castSource, if_neg (by simp [htype])]
  have hconstants : e.constantsFor v v.type = [] := if_neg fun hc => by
    rw [Value.isFloat, hc.2] at hv
    cases hv
  obtain ⟨r, hr, ha, hms⟩ := intToInt_moves h
  refine ⟨e.target.intToInt r v type, ⟨r, hr, ha, ?_⟩, ?_, ?_, fun _ => ?_, fun hf => ?_⟩
  · rw [e.target.intToInt_of_size r hsize, hsource]
  · rw [← flatMap_lines_essence, hms]
    rfl
  · rw [hconstants]
    refine .of_stock ?_
    rw [intToInt, grants_read_bind, grants_bind] at h
    obtain ⟨_, ms₁, halloc, _, h, rfl⟩ := h
    simp only [Emit.instr, move, grants_moves_bind, grants_pure] at h
    obtain ⟨_, ⟨-, rfl⟩, rfl⟩ := h
    rw [Engine.makeAll_append, List.append_nil]
    exact (Engine.stock_makeAll_instrs _ [_]).trans (allocReg_stock halloc)
  · rw [e.target.intToInt_of_size r hsize]
  · cases htype.symm.trans hf

theorem floatToFloat_within (h : (floatToFloat v type).Grants e a ms) (hv : v.isFloat = true)
    (htype : TypePolicy.isFloat type = true) : ∃ i, CastWithin e v type a ms i := by
  rw [floatToFloat, grants_read_bind, grants_bind] at h
  obtain ⟨_, ms₁, halloc, _, h, rfl⟩ := h
  obtain ⟨r, hr, rfl, hms⟩ := allocRegAs_moves halloc
  have hstock := allocReg_stock halloc
  have htarget := e.makeAll_target ms₁
  rw [grants_bind] at h
  obtain ⟨w, ms₂, hw, _, h, rfl⟩ := h
  obtain ⟨hwtype, hsource⟩ := materialize_source hw hv htype
  rw [Engine.castSource_congr htarget hstock] at hsource
  simp only [Emit.instr, move, grants_moves_bind, grants_pure] at h
  obtain ⟨_, ⟨rfl, rfl⟩, rfl⟩ := h
  have hwfloat : w.isFloat = true := by rw [Value.isFloat, hwtype]; exact hv
  obtain ⟨m, hinstr, hm⟩ := e.target.floatToFloat_of_isFloat r hwfloat htype
  have hpool : r ∈ e.target.floatPool := by
    rw [regClass_of_isFloat htype] at hr
    exact hr.mem_pool
  refine ⟨e.target.floatToFloat r w type, ⟨r, hr, rfl, ?_⟩, ?_, ?_, fun hf => ?_, fun _ => ?_⟩
  · rw [hinstr, hsource, e.target.resize_floatPool hpool]
  · rw [← flatMap_lines_essence, essence_append, essence_append, hms, materialize_quiet hw]
    rfl
  · rw [Engine.makeAll_append, Engine.makeAll_append, List.append_nil,
      ← Engine.constantsFor_congr htarget hstock]
    exact (materialize_stores hw).congr hstock (Engine.stock_makeAll_instrs _ [_])
  · cases htype.symm.trans hf
  · rw [hinstr, ← hwtype]
    exact hm

theorem convert_within
    (h : Emit.Grants (match TypePolicy.regClass v.type, TypePolicy.regClass type with
      | .int, .int => intToInt v type
      | .int, .float => intToFloat v type
      | .float, .int => floatToInt v type
      | .float, .float => floatToFloat v type) e a ms)
    (hclass : v.regClass = TypePolicy.regClass type)
    (hsize : e.target.typeSize v.type = e.target.typeSize type ∨ TypePolicy.isFloat type = true) :
    ∃ i, CastWithin e v type a ms i := by
  cases hsrc : TypePolicy.isFloat v.type <;> cases htype : TypePolicy.isFloat type
  · rw [regClass_of_not_isFloat hsrc, regClass_of_not_isFloat htype] at h
    exact intToInt_within h hsrc htype (hsize.resolve_right (by simp [htype]))
  · rw [Value.regClass, regClass_of_not_isFloat hsrc, regClass_of_isFloat htype] at hclass
    cases hclass
  · rw [Value.regClass, regClass_of_isFloat hsrc, regClass_of_not_isFloat htype] at hclass
    cases hclass
  · rw [regClass_of_isFloat hsrc, regClass_of_isFloat htype] at h
    exact floatToFloat_within h hsrc htype

theorem cast_within (h : (Emit.cast v type).Grants e a ms)
    (hclass : TypePolicy.regClass (e.target.typeOrWord v.type) = TypePolicy.regClass type)
    (hsize : e.target.typeSize (e.target.typeOrWord v.type) = e.target.typeSize type ∨
      TypePolicy.isFloat type = true) :
    ∃ i, CastWithin e (v.withType (e.target.typeOrWord v.type)) type a ms i := by
  simp only [Emit.cast, grants_ite, grants_throw, if_false_left] at h
  obtain ⟨-, h⟩ := h
  rw [grants_bind] at h
  obtain ⟨_, ms₁, hcheck, ms₂, h, rfl⟩ := h
  -- the check of the type changes neither registers nor storage
  have hq := checkType_quiet hcheck
  have hstock := checkType_stock hcheck
  have htarget := e.makeAll_target ms₁
  rw [grants_read_bind, htarget] at h
  obtain ⟨i, ⟨r, hr, ha, hops⟩, hlines, hstores, hinteger, hfloat⟩ :=
    convert_within h hclass (htarget.symm ▸ hsize)
  rw [e.regs_makeAll_of_quiet hq] at hr
  rw [htarget, Engine.castSource_congr htarget hstock] at hops
  rw [Engine.constantsFor_congr htarget hstock, ← Engine.makeAll_append] at hstores
  rw [htarget] at hfloat
  refine ⟨i, ⟨r, hr, ha, hops⟩, ?_, hstores.congr hstock rfl, hinteger, hfloat⟩
  rw [← flatMap_lines_essence, essence_append, hq, List.nil_append, flatMap_lines_essence, hlines]

/-- A cast within a class, granted in any run, appends one instruction to the code that goes out.
Between integer types of one size it is a plain move.  Between floating types it moves or
converts, by the sizes.  The result is a new temporary register, and nothing else is added to the
program, apart from the constant for a floating literal. -/
theorem Engine.cast_within_class (t : Target) (strict : Bool) (qs : List Request) (v : Value)
    (type : Text) {a : Value}
    (hcast : ((Engine.new t strict).serveAll qs).reply (.cast v type) = .ok (.value a))
    (hclass : TypePolicy.regClass (t.typeOrWord v.type) = TypePolicy.regClass type)
    (hsize : t.typeSize (t.typeOrWord v.type) = t.typeSize type ∨
      TypePolicy.isFloat type = true) :
    let e := (Engine.new t strict).serveAll qs
    let e' := e.serve (.cast v type)
    (a.isRegister ∧ a.temp ∧ a.type = type) ∧
      (∃ i : Instr, e'.body = e.body ++ [.instr i] ∧
        i.operands = [.reg (t.resize a.name (t.typeSize type)), e.castSource v type] ∧
        (TypePolicy.regClass type = .int → i.mnemonic = .mov) ∧
        (TypePolicy.regClass type = .float →
          (t.typeSize (t.typeOrWord v.type), t.typeSize type, i.mnemonic) ∈ floatMoves)) ∧
      e'.data = e.data ++ e.constantsFor v (t.typeOrWord v.type) ∧
      e'.bss = e.bss ∧ e'.builtins = e.builtins ∧ e'.funcs = e.funcs ∧
      e'.current.map (·.id) = e.current.map (·.id) ∧
      (e.current.isSome → e'.text = e.text) := by
  intro e e'
  have htarget : e.target = t := Engine.serveAll_target ..
  have hgrant : (Request.cast v type).emit.Grants e (.value a) (e.movesOf (.cast v type)) :=
    Prod.ext hcast rfl
  obtain ⟨_, hgrants, ha⟩ := grants_map.mp hgrant
  cases ha
  obtain ⟨i, ⟨r, hr, rfl, hops⟩, hlines, hstores, hinteger, hfloat⟩ :=
    cast_within hgrants (htarget.symm ▸ hclass) (htarget.symm ▸ hsize)
  rw [htarget] at hops hstores hfloat
  have hbody := body_serve (Chronicle.describes_of t strict qs) (q := .cast v type) rfl
  have hinner := Request.inner_moves (q := .cast v type) rfl e
  obtain ⟨hfuncs, htext⟩ := makeAll_around (e := e) hinner
  refine ⟨⟨rfl, rfl, rfl⟩, ⟨i, hbody.trans (congrArg (_ ++ ·) hlines), hops, fun hc => ?_,
    fun hc => ?_⟩, hstores.data, hstores.bss, hstores.builtins, hfuncs, id_makeAll hinner, htext⟩
  · refine hinteger (Bool.eq_false_iff.mpr fun hf => ?_)
    cases hc.symm.trans (regClass_of_isFloat hf)
  · refine hfloat (by_contra fun hf => ?_)
    cases hc.symm.trans (regClass_of_not_isFloat (Bool.eq_false_iff.mpr hf))

/-- Names mislead: inside of a function, a word without a type moves to a type with leading zeros,
`double32` has the four bytes of `float`, and `float16` has eight. -/
theorem Engine.cast_within_class_names :
    let e := (Engine.new .bits64 true).serveAll [.beginFunction "f" []]
    let emits (v : Value) (type : Text) (m : Mnemonic) : Prop :=
      ∃ operands, (e.serve (.cast v type)).body = e.body ++ [.instr ⟨m, operands⟩]
    let number (type : Text) : Value := { kind := .number, text := "2.5", type := type }
    emits (.ofRegister "rcx" "" true) "int0064" .mov ∧
      emits (number "float") "double32" .movss ∧
      emits (number "float16") "double32" .cvtsd2ss ∧
      (e.serve (.cast (number "float16") "double32")).data =
        e.data ++ [⟨"float_lit_0", .dq, .number "2.5"⟩] := by
  intro e emits number
  have hmove := cast_within_class .bits64 true [.beginFunction "f" []]
    (.ofRegister "rcx" "" true) "int0064" (a := .ofRegister "rbx" "int0064" true)
    (by decide +kernel) (by decide +kernel) (.inl (by decide +kernel))
  have hsingle := cast_within_class .bits64 true [.beginFunction "f" []]
    (number "float") "double32" (a := .ofRegister "xmm0" "double32" true)
    (by decide +kernel) (by decide +kernel) (.inl (by decide +kernel))
  have hconvert := cast_within_class .bits64 true [.beginFunction "f" []]
    (number "float16") "double32" (a := .ofRegister "xmm0" "double32" true)
    (by decide +kernel) (by decide +kernel) (.inr (by decide +kernel))
  obtain ⟨-, ⟨⟨m, _⟩, hm, -, hmnemonic, -⟩, -⟩ := hmove
  obtain ⟨-, ⟨⟨s, _⟩, hs, -, -, hmnemonic'⟩, -⟩ := hsingle
  obtain ⟨-, ⟨⟨c, _⟩, hc, -, -, hmnemonic''⟩, hdata, -⟩ := hconvert
  have hmov : m = .mov := hmnemonic (by decide +kernel)
  have hmovss : s = .movss := by
    have hs : (4, 4, s) ∈ floatMoves := hmnemonic' (by decide +kernel)
    simpa [floatMoves] using hs
  have hcvt : c = .cvtsd2ss := by
    have hc : (8, 4, c) ∈ floatMoves := hmnemonic'' (by decide +kernel)
    simpa [floatMoves] using hc
  refine ⟨⟨_, hmov ▸ hm⟩, ⟨_, hmovss ▸ hs⟩, ⟨_, hcvt ▸ hc⟩, ?_⟩
  rw [hdata]
  decide +kernel

end Assembly
