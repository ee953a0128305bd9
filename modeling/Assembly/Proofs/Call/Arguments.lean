import Assembly.Proofs.Engine.Registers
import Assembly.Proofs.Frame.Body

/-!
# The code of calls and of parameters

What a granted call emits: for each argument the code of its kind, the last argument first,
then the call and the copy of its result.  And what the first use of a parameter emits.
-/

namespace Assembly

open Move Emit

namespace RegisterFile

/-- A register that code may overwrite for a moment.  In a strict file it is not in use. -/
structure Spare (f : RegisterFile) (r : Text) : Prop where
  pool : r ∈ f.pool .int
  free : f.strict = true → r ∉ f.inUse .int

theorem Hands.spare {f : RegisterFile} {r : Text} (h : f.Hands .int r) : f.Spare r :=
  ⟨h.mem_pool, fun hs => firstFree?_notMem (h.firstFree? hs)⟩

end RegisterFile

/-- The code that pushes an argument, by the kind of the argument. -/
inductive ArgCode (t : Target) (f : RegisterFile) (v : Value) : List Instr → Prop
  | float (hreg : v.isRegister = true) (hfloat : v.isFloat = true) : ArgCode t f v (t.floatPush v)
  | register (hreg : v.isRegister = true) (hfloat : v.isFloat = false) :
    ArgCode t f v (t.widening v ++ [Instr.push v.name])
  | label {tmp : Text} (label : Text) (hkind : v.kind = .string) (htmp : f.Spare tmp) :
    ArgCode t f v [t.labelLoad tmp label, .push tmp]
  /-- Only a floating literal is stored before it is loaded. -/
  | loaded {tmp : Text} {w : Value} (hreg : v.isRegister = false) (hkind : v.kind ≠ .string)
    (hw : v.isFloat = false → w = v) (htmp : f.Spare tmp) :
    ArgCode t f v [t.intLoad tmp w (t.typeOrWord v.type), .push tmp]

variable {e : Engine} {ms : List Move} {u : Unit} {a v : Value} {type name : Text}

theorem materialize_of_int (h : (materialize v type).Grants e a ms)
    (hint : TypePolicy.isFloat type = false) : a = v := by
  simp only [materialize, grants_ite, grants_pure] at h
  rw [if_pos (.inr (by simp [hint]))] at h
  exact h.1

theorem isFloat_typeOrWord (t : Target) (type : Text) :
    TypePolicy.isFloat (t.typeOrWord type) = TypePolicy.isFloat type := by
  rw [Target.typeOrWord]
  cases type with
  | nil => cases t <;> decide +kernel
  | cons c r => rfl

theorem pushArg_code (h : (pushArg v).Grants e u ms) :
    ∃ is, ArgCode e.target e.regs v is ∧ ms.flatMap lines = is.map .instr := by
  simp only [pushArg, grants_read_bind, grants_ite, grants_instrs] at h
  split at h
  case isTrue hv =>
    exact ⟨_, .float hv.1 hv.2, by rw [h, flatMap_lines_instrs]⟩
  case isFalse hv =>
    split at h
    case isTrue hreg =>
      exact ⟨_, .register hreg (by simpa [hreg] using hv), by rw [h, flatMap_lines_instrs]⟩
    case isFalse hreg =>
      split at h
      case isTrue hkind =>
        obtain ⟨label, ms₁, hl, ms₂, hpush, rfl⟩ := grants_bind.mp h
        have hq := stringLabel_quiet hl
        obtain ⟨r, hr, hms⟩ := pushLabel_moves hpush
        rw [e.regs_makeAll_of_quiet hq] at hr
        rw [e.makeAll_target] at hms
        refine ⟨_, .label label hkind hr.spare, ?_⟩
        rw [← flatMap_lines_essence, essence_append, hq, hms]
        rfl
      case isFalse hkind =>
        obtain ⟨w, ms₁, hw, ms₂, hpush, rfl⟩ := grants_bind.mp h
        have hq := materialize_quiet hw
        obtain ⟨r, hr, hms⟩ := pushThroughTemp_moves hpush
        rw [e.regs_makeAll_of_quiet hq] at hr
        rw [e.makeAll_target] at hms
        have hsame : v.isFloat = false → w = v := fun hf =>
          materialize_of_int hw ((isFloat_typeOrWord _ _).trans hf)
        refine ⟨_, .loaded (by simpa using hreg) hkind hsame hr.spare, ?_⟩
        rw [← flatMap_lines_essence, essence_append, hq, hms]
        rfl

theorem ArgCode.mono {t : Target} {f g : RegisterFile} {is : List Instr} (h : ArgCode t f v is)
    (hspare : ∀ r, f.Spare r → g.Spare r) : ArgCode t g v is := by
  cases h with
  | float hreg hfloat => exact .float hreg hfloat
  | register hreg hfloat => exact .register hreg hfloat
  | label label hkind htmp => exact .label label hkind (hspare _ htmp)
  | loaded hreg hkind hw htmp => exact .loaded hreg hkind hw (hspare _ htmp)

/-- Every argument finds the registers as the call found them: a strict engine has taken
back the scratch registers of the arguments before it. -/
theorem pushArgs_code {callee : Text} {index : Nat} {args : List Value}
    (h : (pushArgs callee index args).Grants e u ms) :
    ∃ codes, List.Forall₂ (ArgCode e.target e.regs) args codes ∧
      ms.flatMap lines = codes.reverse.flatten.map .instr := by
  induction args generalizing index u ms with
  | nil => exact ⟨[], .nil, by rw [(grants_pure.mp h).2]; rfl⟩
  | cons arg rest ih =>
    rw [pushArgs, grants_bind] at h
    obtain ⟨_, ms₁, hrest, ms₂, harg, rfl⟩ := h
    obtain ⟨codes, hcodes, hlines⟩ := ih hrest
    obtain ⟨is, his, hlines'⟩ := pushArg_code (grants_rewording.mp harg)
    have htarget : (e.makeAll ms₁).regs.target = e.regs.target :=
      congrArg Prod.fst (e.makeAll_regs_kind ms₁)
    rw [e.makeAll_target] at his
    refine ⟨is :: codes, .cons (his.mono fun r hr => ⟨?_, fun hs => ?_⟩) hcodes, ?_⟩
    · rw [RegisterFile.pool, ← htarget]
      exact hr.pool
    · have hsame := (pushArgs_keeps hs hrest).regs
      rw [hsame] at hr
      exact hr.free hs
    · simp [hlines, hlines']

theorem callAs_code {args : List Value} (h : (callAs name args type).Grants e a ms) :
    ∃ codes, List.Forall₂ (ArgCode e.target e.regs) args codes ∧
      ms.flatMap lines = (codes.reverse.flatten ++ e.target.callThenDrop name args.length ++
        [e.target.resultMove a.name type]).map .instr := by
  obtain ⟨ms₁, r, hargs, -, rfl, hms⟩ := callAs_moves h
  obtain ⟨codes, hcodes, hlines⟩ := pushArgs_code hargs
  refine ⟨codes, hcodes, ?_⟩
  rw [← flatMap_lines_essence, hms, List.flatMap_append, List.flatMap_append,
    flatMap_lines_essence, hlines, flatMap_lines_instrs]
  simp [Value.ofRegister]

theorem param_cached {f : FunctionRef} {g : Frame} {b : Value} (h : (param f name).Grants e a ms)
    (hcur : e.current = some g) (hold : g.cached.get? name = some b) : a = b ∧ ms = [] := by
  rw [param, grants_bind] at h
  obtain ⟨g', _, hg, _, h, rfl⟩ := h
  obtain ⟨rfl, hcur', -⟩ := openFrame_granted hg
  rw [hcur, Option.some.injEq] at hcur'
  subst hcur'
  rw [hold] at h
  exact grants_pure.mp h

theorem param_code {f : FunctionRef} {g : Frame} (h : (param f name).Grants e a ms)
    (hcur : e.current = some g) (hnew : g.cached.get? name = none) :
    ∃ p i, g.params.zipIdx.find? (·.1.name = name) = some (p, i) ∧
      e.regs.Hands (TypePolicy.regClass p.type) a.name ∧
      ms.flatMap lines = [.instr (e.target.fetch a.name p.type (e.target.paramSlot i))] := by
  rw [param, grants_bind] at h
  obtain ⟨g', _, hg, _, h, rfl⟩ := h
  obtain ⟨rfl, hcur', -⟩ := openFrame_granted hg
  rw [hcur, Option.some.injEq] at hcur'
  subst hcur'
  rw [Engine.makeAll_nil] at h
  rw [hnew] at h
  dsimp only at h
  split at h
  · exact (grants_throw.mp h).elim
  · rename_i p i hfind
    rw [grants_read_bind, grants_bind] at h
    obtain ⟨_, _, halloc, _, h, rfl⟩ := h
    obtain ⟨r, hr, rfl, hms⟩ := allocRegAs_moves halloc
    simp only [Emit.instr, move, grants_moves_bind, grants_pure] at h
    obtain ⟨_, ⟨_, ⟨rfl, rfl⟩, rfl⟩, rfl⟩ := h
    refine ⟨p, i, hfind, hr, ?_⟩
    rw [List.nil_append, ← flatMap_lines_essence, essence_append, hms]
    rfl

theorem find?_param {params : List Param} (hnames : (params.map (·.name)).Nodup) {i : Nat}
    {p : Param} (hp : params[i]? = some p) (n : Nat) :
    (params.zipIdx n).find? (·.1.name = p.name) = some (p, n + i) := by
  induction params generalizing i n with
  | nil => cases hp
  | cons q params ih =>
    rw [List.map_cons, List.nodup_cons] at hnames
    rw [List.zipIdx_cons]
    cases i with
    | zero =>
      rw [List.getElem?_cons_zero, Option.some.injEq] at hp
      subst hp
      exact List.find?_cons_of_pos (decide_eq_true rfl)
    | succ i =>
      rw [List.getElem?_cons_succ] at hp
      have hne : ¬ q.name = p.name := by
        intro heq
        rw [heq] at hnames
        exact hnames.1 (List.mem_map_of_mem (List.mem_of_getElem? hp))
      rw [List.find?_cons_of_neg (by simpa using hne), ih hnames.2 hp (n + 1)]
      congr 2
      omega

/-! ## In a run -/

namespace Engine

variable (t : Target) (strict : Bool) (qs : List Request)

theorem body_callAs {args : List Value}
    (h : ((Engine.new t strict).serveAll qs).reply (.callAs name args type) = .ok (.value v)) :
    ∃ codes, List.Forall₂ (ArgCode t ((Engine.new t strict).serveAll qs).regs) args codes ∧
      (((Engine.new t strict).serveAll qs).serve (.callAs name args type)).body =
        ((Engine.new t strict).serveAll qs).body ++ (codes.reverse.flatten ++
          t.callThenDrop name args.length ++ [t.resultMove v.name type]).map .instr := by
  have hbody := Engine.body_serve (Chronicle.describes_of t strict qs)
    (q := .callAs name args type) rfl
  have hgrant : (Request.callAs name args type).emit.Grants _ (.value v) _ := Prod.ext h rfl
  obtain ⟨a, hcall, ha⟩ := grants_map.mp hgrant
  cases ha
  obtain ⟨codes, hcodes, hlines⟩ := callAs_code hcall
  rw [Engine.serveAll_target] at hcodes hlines
  exact ⟨codes, hcodes, hbody.trans (congrArg (_ ++ ·) hlines)⟩

theorem body_param {f : FunctionRef} {g : Frame}
    (h : ((Engine.new t strict).serveAll qs).reply (.param f name) = .ok (.value v))
    (hcur : ((Engine.new t strict).serveAll qs).current = some g)
    (hnew : g.cached.get? name = none) :
    ∃ p i, g.params.zipIdx.find? (·.1.name = name) = some (p, i) ∧
      (TypePolicy.isFloat p.type = false → v.name ∈ t.intPool) ∧
      (((Engine.new t strict).serveAll qs).serve (.param f name)).body =
        ((Engine.new t strict).serveAll qs).body ++
          [Line.instr (t.fetch v.name p.type (t.paramSlot i))] := by
  have htarget := Engine.regs_target_serveAll (e := Engine.new t strict) rfl qs
  have hbody := Engine.body_serve (Chronicle.describes_of t strict qs) (q := .param f name) rfl
  have hgrant : (Request.param f name).emit.Grants _ (.value v) _ := Prod.ext h rfl
  obtain ⟨a, hparam, ha⟩ := grants_map.mp hgrant
  cases ha
  obtain ⟨p, i, hfind, hhands, hlines⟩ := param_code hparam hcur hnew
  rw [Engine.serveAll_target] at hlines
  refine ⟨p, i, hfind, fun hint => ?_, hbody.trans (congrArg (_ ++ ·) hlines)⟩
  have hpool := hhands.mem_pool
  rw [TypePolicy.regClass, hint] at hpool
  have hsame : ((Engine.new t strict).serveAll qs).regs.target = t :=
    htarget.trans (Engine.serveAll_target _ qs)
  rw [← hsame]
  exact hpool

theorem body_param_cached {f : FunctionRef} {g : Frame} {b : Value}
    (h : ((Engine.new t strict).serveAll qs).reply (.param f name) = .ok (.value v))
    (hcur : ((Engine.new t strict).serveAll qs).current = some g)
    (hold : g.cached.get? name = some b) :
    v = b ∧ (((Engine.new t strict).serveAll qs).serve (.param f name)).body =
      ((Engine.new t strict).serveAll qs).body := by
  have hbody := Engine.body_serve (Chronicle.describes_of t strict qs) (q := .param f name) rfl
  have hgrant : (Request.param f name).emit.Grants _ (.value v) _ := Prod.ext h rfl
  obtain ⟨a, hparam, ha⟩ := grants_map.mp hgrant
  cases ha
  obtain ⟨rfl, hmoves⟩ := param_cached hparam hcur hold
  have hlines : ((Engine.new t strict).serveAll qs).linesOf (.param f name) = [] :=
    congrArg (List.flatMap lines) hmoves
  exact ⟨rfl, by rw [hbody, hlines, List.append_nil]⟩

end Engine

end Assembly
