import Assembly.Proofs.Call.Arguments
import Assembly.Proofs.Engine.Atomic

/-!
# Registers after a refusal

A strict engine refuses a request when it has no register left for it.  Scratch registers
are taken back on every way out, and a register for a result is asked for last, so that a
refusal leaves the registers in use as they were.

Casts between the classes are different when the value is not in a register: the register
for the result is taken first, and the scratch register, of the other class, after it.  If
there is none, the first register stays in use, and nobody has a handle of it.
`refused_keeps_iff` says that no other refusal changes the registers in use.
-/

namespace Assembly

open Move Emit Engine

/-- The request is a cast to a known type of the other class, of a value that is in no register.
There is a register for the result, and none to pass the value through. -/
def Request.strands (e : Engine) : Request → Prop
  | cast v type => v.isRegister = false ∧ v.kind ≠ .string ∧ v.kind ≠ .empty ∧
      e.target.knows type = true ∧ v.regClass ≠ TypePolicy.regClass type ∧
      (e.regs.firstFree? (TypePolicy.regClass type)).isSome = true ∧
      e.regs.firstFree? v.regClass = none
  | _ => False

namespace Emit

variable {α : Type} {e : Engine} {x : EmitError} {ms : List Move} {v : Value} {type name : Text}

/-! ## Loads, calls and prints -/

theorem loadValue_refused (h : (loadValue v type).Refuses e x ms) : essence ms = [] := by
  simp only [loadValue, refuses_ite, refuses_pure, refuses_throw, refuses_read_bind] at h
  split at h
  · exact h.elim
  split at h
  · rw [h.2]; rfl
  · obtain ⟨w, ms₁, hw, ms₂, hrest, rfl⟩ := (total_materialize v _).refuses_bind h
    have halloc := hrest.of_bind_total fun r => .bind (.moves _) fun _ => .pure r
    rw [(allocRegAs_refused halloc).2.2, essence_append, materialize_quiet hw]
    rfl

theorem pushThroughTemp_refused (h : (pushThroughTemp v type).Refuses e x ms) : ms = [] :=
  (withTemp_refused (fun _ => .instrs _) (refuses_read_bind.mp h)).2.2

theorem pushLabel_refused {label : Text} (h : (pushLabel label).Refuses e x ms) : ms = [] :=
  (withTemp_refused (fun _ => .instrs _) (refuses_read_bind.mp h)).2.2

theorem pushArg_refused (h : (pushArg v).Refuses e x ms) : essence ms = [] := by
  simp only [pushArg, refuses_read_bind, refuses_ite] at h
  split at h
  · exact absurd h (Total.instrs _ _ _ _)
  split at h
  · exact absurd h (Total.instrs _ _ _ _)
  split at h
  · obtain ⟨label, ms₁, hlabel, ms₂, hrest, rfl⟩ := (total_stringLabel v.text).refuses_bind h
    rw [pushLabel_refused hrest, essence_append, stringLabel_quiet hlabel]
    rfl
  · obtain ⟨w, ms₁, hw, ms₂, hrest, rfl⟩ := (total_materialize v _).refuses_bind h
    rw [pushThroughTemp_refused hrest, essence_append, materialize_quiet hw]
    rfl

/-- The arguments that were pushed before the one that is refused have kept the registers. -/
theorem pushArgs_refused {index : Nat} {args : List Value} (hs : e.regs.strict)
    (h : (pushArgs name index args).Refuses e x ms) : e.Keeps ms := by
  induction args generalizing index ms with
  | nil => exact (refuses_pure.mp h).elim
  | cons arg rest ih =>
    rcases refuses_bind.mp h with hrest | ⟨_, ms₁, hrest, ms₂, harg, rfl⟩
    · exact ih hrest
    · obtain ⟨y, hy, -⟩ := refuses_rewording.mp harg
      exact (pushArgs_keeps hs hrest).append (keeps_of_quiet (pushArg_refused hy))

theorem callAs_refused {args : List Value} (hs : e.regs.strict)
    (h : (callAs name args type).Refuses e x ms) : e.Keeps ms := by
  rcases refuses_bind.mp (refuses_read_bind.mp h) with hargs | ⟨_, ms₁, hargs, ms₂, hrest, rfl⟩
  · exact pushArgs_refused hs hargs
  · obtain ⟨_, ms₃, hcall, ms₄, hlast, rfl⟩ := (Total.instrs _).refuses_bind hrest
    have halloc := hlast.of_bind_total fun r => .bind (.moves _) fun _ => .pure r
    rw [(allocRegAs_refused halloc).2.2, grants_instrs.mp hcall, List.append_nil]
    exact (pushArgs_keeps hs hargs).append (.instrs _ _)

theorem printInt_refused (h : (printInt v).Refuses e x ms) : essence ms = [] := by
  obtain ⟨_, ms₁, hneed, ms₂, hrest, rfl⟩ := total_needPrintInt.refuses_bind h
  simp only [refuses_read_bind, refuses_ite] at hrest
  split at hrest
  · exact absurd hrest (Total.bind (.instrs _) (fun _ => .instrs _) _ _ _)
  · rw [pushThroughTemp_refused (hrest.of_bind_total fun _ => .instrs _), List.append_nil]
    exact needPrintInt_quiet hneed

theorem printFloat_refused (h : (printFloat v).Refuses e x ms) : essence ms = [] := by
  obtain ⟨_, ms₁, hneed, ms₂, hrest, rfl⟩ := total_needPrintFloat.refuses_bind h
  obtain ⟨w, ms₃, hw, ms₄, hlast, rfl⟩ :=
    (total_materialize v _).refuses_bind (refuses_read_bind.mp hrest)
  rw [refuses_ite] at hlast
  split at hlast
  · exact absurd hlast (Total.bind (.instrs _) (fun _ => .instrs _) _ _ _)
  · have htemp := hlast.of_bind_total fun _ => .instrs _
    rw [(withTemp_refused (fun _ => .instrs _) htemp).2.2, List.append_nil, essence_append,
      needPrintFloat_quiet hneed, materialize_quiet hw]
    rfl

theorem print_refused (h : (print v).Refuses e x ms) : essence ms = [] := by
  simp only [print, refuses_ite] at h
  split at h
  · exact absurd h (total_printString _ _ _ _)
  split at h
  · exact printFloat_refused h
  · exact printInt_refused h

/-! ## Casts -/

/-- A register for a result is refused at once, or it is in use when something later is refused. -/
theorem allocReg_then_refused {k : Value → Emit α} (hs : e.regs.strict)
    (h : (allocReg type >>= k).Refuses e x ms) :
    (e.regs.firstFree? (TypePolicy.regClass type) = none ∧ ms = []) ∨
      ∃ r ms₁ ms₂, e.regs.firstFree? (TypePolicy.regClass type) = some r ∧
        essence ms₁ = [.take (TypePolicy.regClass type)] ∧
        (k (.ofRegister r type true)).Refuses (e.makeAll ms₁) x ms₂ ∧ ms = ms₁ ++ ms₂ := by
  rcases refuses_bind.mp h with h | ⟨_, ms₁, halloc, ms₂, hrest, rfl⟩
  · exact .inl (allocRegAs_refused h).2
  · obtain ⟨r, hr, rfl, hms⟩ := allocRegAs_moves halloc
    exact .inr ⟨r, ms₁, ms₂, hr.firstFree? hs, hms, hrest, rfl⟩

theorem firstFree?_taken {c d : RegClass} (hms : essence ms = [.take d]) (hcd : c ≠ d) :
    (e.makeAll ms).regs.firstFree? c = e.regs.firstFree? c := by
  rw [Engine.regs_makeAll, hms]
  show (e.take d).regs.firstFree? c = _
  cases ha : e.regs.alloc? d with
  | none => rw [Engine.take, ha]
  | some ag =>
    rw [e.regs_take ha]
    cases hfree : e.regs.firstFree? d with
    | none => rw [(RegisterFile.alloc?_of_full hfree ha).2]
    | some r =>
      rw [RegisterFile.alloc?_of_firstFree? hfree] at ha
      cases ha
      rw [RegisterFile.firstFree?, RegisterFile.pool_setInUse]
      simp only [RegisterFile.uses, RegisterFile.inUse_setInUse_of_ne _ _ hcd]
      rfl

theorem materialize_type {w : Value} (h : (materialize v v.type).Grants e w ms) :
    w.type = v.type := by
  rw [Grants, materialize_run] at h
  split at h <;> cases h <;> rfl

/-- A conversion is refused before it has taken a register, or between its two registers. -/
theorem convert_refused (hs : e.regs.strict)
    (h : Refuses (match TypePolicy.regClass v.type, TypePolicy.regClass type with
      | .int, .int => intToInt v type
      | .int, .float => intToFloat v type
      | .float, .int => floatToInt v type
      | .float, .float => floatToFloat v type) e x ms) :
    (e.regs.firstFree? (TypePolicy.regClass type) = none ∧ essence ms = []) ∨
      v.isRegister = false ∧ TypePolicy.regClass v.type ≠ TypePolicy.regClass type ∧
        (e.regs.firstFree? (TypePolicy.regClass type)).isSome = true ∧
        e.regs.firstFree? (TypePolicy.regClass v.type) = none ∧
        essence ms = [.take (TypePolicy.regClass type)] := by
  have hfirst : ∀ {ns : List Move}, e.regs.firstFree? (TypePolicy.regClass type) = none ∧ ns = [] →
      e.regs.firstFree? (TypePolicy.regClass type) = none ∧ essence ns = [] :=
    fun hns => ⟨hns.1, by rw [hns.2]; rfl⟩
  split at h
  case h_1 =>
    rcases allocReg_then_refused hs (refuses_read_bind.mp h) with h | ⟨_, _, _, -, -, hrest, -⟩
    · exact .inl (hfirst h)
    · exact absurd hrest (Total.bind (.moves _) (fun _ => .pure _) _ _ _)
  case h_4 =>
    rcases allocReg_then_refused hs (refuses_read_bind.mp h) with h | ⟨_, _, _, -, -, hrest, -⟩
    · exact .inl (hfirst h)
    · exact absurd hrest (Total.bind (total_materialize _ _)
        (fun _ => .bind (.moves _) fun _ => .pure _) _ _ _)
  case h_2 hsrc hdst =>
    rcases allocReg_then_refused hs (refuses_read_bind.mp h) with
      h | ⟨r, ms₁, ms₂, hfree, htaken, hrest, rfl⟩
    · exact .inl (hfirst h)
    rw [refuses_ite] at hrest
    split at hrest
    · exact absurd hrest (Total.bind (.instrs _) (fun _ => .pure _) _ _ _)
    case isFalse hreg =>
      obtain ⟨-, hfull, rfl⟩ :=
        withTemp_refused (fun _ => .instrs _) (hrest.of_bind_total fun _ => .pure _)
      rw [regClass_wordType, firstFree?_taken htaken (by rw [hdst]; decide)] at hfull
      refine .inr ⟨by simpa using hreg, by rw [hsrc, hdst]; decide, by rw [hfree]; rfl,
        hsrc ▸ hfull, ?_⟩
      rw [List.append_nil, htaken]
  case h_3 hsrc hdst =>
    rcases allocReg_then_refused hs (refuses_read_bind.mp h) with
      h | ⟨r, ms₁, ms₂, hfree, htaken, hrest, rfl⟩
    · exact .inl (hfirst h)
    rw [refuses_ite] at hrest
    split at hrest
    · exact absurd hrest (Total.bind (.moves _) (fun _ => .pure _) _ _ _)
    case isFalse hreg =>
      obtain ⟨w, ms₃, hw, ms₄, hlast, rfl⟩ := (total_materialize v _).refuses_bind hrest
      obtain ⟨-, hfull, rfl⟩ :=
        withTemp_refused (fun _ => .instrs _) (hlast.of_bind_total fun _ => .pure _)
      rw [materialize_type hw, Engine.regs_makeAll_of_quiet _ (materialize_quiet hw),
        firstFree?_taken htaken (by rw [hsrc, hdst]; decide)] at hfull
      refine .inr ⟨by simpa using hreg, by rw [hsrc, hdst]; decide, by rw [hfree]; rfl, hfull, ?_⟩
      rw [List.append_nil, essence_append, htaken, materialize_quiet hw]
      rfl

theorem cast_refused (he : e.Strict) (h : (cast v type).Refuses e x ms) :
    (¬ (Request.cast v type).strands e ∧ essence ms = []) ∨
      (Request.cast v type).strands e ∧ essence ms = [.take (TypePolicy.regClass type)] := by
  simp only [cast, refuses_ite, refuses_throw] at h
  split at h
  case isTrue hkind =>
    refine .inl ⟨fun hstrand => ?_, by rw [h.2]; rfl⟩
    exact hkind.elim hstrand.2.1 hstrand.2.2.1
  case isFalse hkind =>
    rw [not_or] at hkind
    rcases refuses_bind.mp h with hcheck | ⟨_, ms₁, hcheck, ms₂, hrest, rfl⟩
    · obtain ⟨hunknown, -, -, hms⟩ := checkType_refused.mp hcheck
      refine .inl ⟨fun hstrand => ?_, by rw [hms]; rfl⟩
      rw [hstrand.2.2.2.1] at hunknown
      cases hunknown
    have hquiet := checkType_quiet hcheck
    have hsrc : TypePolicy.regClass (e.target.typeOrWord v.type) = v.regClass := by
      rw [Value.regClass, TypePolicy.regClass, TypePolicy.regClass, isFloat_typeOrWord]
    have hconvert := convert_refused (by simpa using he.file) (refuses_read_bind.mp hrest)
    simp only [Value.withType, e.makeAll_target, hsrc, e.regs_makeAll_of_quiet hquiet] at hconvert
    rw [essence_append, hquiet, List.nil_append]
    rcases hconvert with ⟨hfull, hms⟩ | ⟨hreg, hclass, hfree, hfull, hms⟩
    · refine .inl ⟨fun hstrand => ?_, hms⟩
      have hsome := hstrand.2.2.2.2.2.1
      rw [hfull] at hsome
      cases hsome
    · have hknown := checkType_known he.rules hcheck
      exact .inr ⟨⟨hreg, hkind.1, hkind.2, hknown, hclass, hfree, hfull⟩, hms⟩

end Emit

/-! ## In a run -/

variable {e : Engine} {q : Request} {x : EmitError} {ms : List Move}

/-- A refused request has kept the registers, or it has stranded the one for its result. -/
theorem Request.refused_registers (he : e.Strict) (h : q.emit.Refuses e x ms) :
    (¬ q.strands e ∧ e.Keeps ms) ∨ ∃ v type, q = .cast v type ∧ q.strands e ∧
      essence ms = [.take (TypePolicy.regClass type)] := by
  by_cases hq : q.structural = true
  · have hnot : ¬ q.strands e := by
      cases q <;> first | exact id | cases hq
    rcases q.refused_moves hq h with ⟨-, rfl⟩ | ⟨_, _, -, -, rfl⟩
    · exact .inl ⟨hnot, .nil e⟩
    · exact .inl ⟨hnot, keeps_of_quiet rfl⟩
  cases q with
  | cast v type =>
    rcases cast_refused he (refuses_map.mp h) with ⟨hnot, hms⟩ | ⟨hstrand, hms⟩
    · exact .inl ⟨hnot, keeps_of_quiet hms⟩
    · exact .inr ⟨v, type, rfl, hstrand, hms⟩
  | alloc =>
    rw [(allocRegAs_refused (refuses_map.mp h)).2.2]
    exact .inl ⟨id, .nil e⟩
  | load => exact .inl ⟨id, keeps_of_quiet (loadValue_refused (refuses_map.mp h))⟩
  | call =>
    exact .inl ⟨id, callAs_refused he.file (refuses_read_bind.mp (refuses_map.mp h))⟩
  | callAs => exact .inl ⟨id, callAs_refused he.file (refuses_map.mp h)⟩
  | print => exact .inl ⟨id, keeps_of_quiet (print_refused (refuses_map.mp h))⟩
  | printFloat => exact .inl ⟨id, keeps_of_quiet (printFloat_refused (refuses_map.mp h))⟩
  | release v => exact absurd (refuses_map.mp h) (total_release v _ _ _)
  | exit => exact absurd (refuses_map.mp h) (Total.reading (fun _ => .instrs _) _ _ _)
  | rawLine | rawInstr | rawBlock | resetRegs =>
    exact absurd (refuses_map.mp h) (Total.moves _ _ _ _)
  | finalize =>
    have hrun := refuses_map.mp h
    rw [Refuses, finalize_run] at hrun
    cases congrArg Prod.fst hrun
  | _ => exact absurd rfl hq

/-- A refusal of a strict engine, whatever was asked and whatever was asked before, leaves the
registers in use as they were, unless it strands one.  Then the register that the cast had taken
for its result is in use in addition. -/
theorem Engine.refused_keeps_iff (t : Target) (qs : List Request) (q : Request) (x : EmitError)
    (hreply : ((Engine.new t true).serveAll qs).reply q = .error x) :
    let e := (Engine.new t true).serveAll qs
    ((∀ c, (e.serve q).regs.inUse c = e.regs.inUse c) ↔ ¬ q.strands e) ∧
      ∀ v type, q = .cast v type → q.strands e →
        ∃ r, e.regs.firstFree? (TypePolicy.regClass type) = some r ∧
          (e.serve q).regs = e.regs.setInUse (TypePolicy.regClass type)
            (e.regs.inUse (TypePolicy.regClass type) ++ [r]) := by
  intro e
  have he : e.Strict := (Engine.strict_new t).serveAll qs
  have hrefused : q.emit.Refuses e x (e.movesOf q) := Prod.ext hreply rfl
  have hstranded : ∀ v type, q = .cast v type → q.strands e →
      ∃ r, e.regs.firstFree? (TypePolicy.regClass type) = some r ∧
        (e.serve q).regs = e.regs.setInUse (TypePolicy.regClass type)
          (e.regs.inUse (TypePolicy.regClass type) ++ [r]) := by
    rintro v type hcast hstrand
    rcases q.refused_registers he hrefused with ⟨hnot, -⟩ | ⟨_, _, hcast', -, hms⟩
    · exact absurd hstrand hnot
    · cases hcast.symm.trans hcast'
      subst hcast
      obtain ⟨r, hr⟩ := Option.isSome_iff_exists.mp hstrand.2.2.2.2.2.1
      refine ⟨r, hr, ?_⟩
      rw [serve, regs_makeAll, hms]
      exact e.regs_take (RegisterFile.alloc?_of_firstFree? hr)
  refine ⟨⟨fun hsame hstrand => ?_, fun hnot c => ?_⟩, hstranded⟩
  · rcases q.refused_registers he hrefused with ⟨hnot, -⟩ | ⟨v, type, hcast, -, -⟩
    · exact hnot hstrand
    · obtain ⟨r, -, hregs⟩ := hstranded v type hcast hstrand
      have hlength := congrArg List.length (hsame (TypePolicy.regClass type))
      rw [hregs, RegisterFile.inUse_setInUse] at hlength
      simp at hlength
  · rcases q.refused_registers he hrefused with ⟨-, hkeeps⟩ | ⟨_, _, -, hstrand, -⟩
    · exact congrArg (·.inUse c) hkeeps.regs
    · exact absurd hstrand hnot

/-- With all integer registers in use, a print of a number is refused and costs nothing; its cast
to a floating type is refused as well, and a floating register stays in use. -/
theorem Engine.refused_keeps_iff_exhausted :
    let full := List.replicate 3 (Request.alloc "int16")
    let e := (Engine.new .bits16 true).serveAll full
    let print := Request.print (.ofInt 5)
    let cast := Request.cast (.ofInt 5) "float"
    (e.reply print = .error (.poolExhausted .int 3) ∧
        ∀ c, (e.serve print).regs.inUse c = e.regs.inUse c) ∧
      e.reply cast = .error (.poolExhausted .int 3) ∧ e.regs.inUse .float = [] ∧
        (e.serve cast).regs.inUse .float = ["xmm0"] := by
  intro full e print cast
  have hprint : e.reply print = .error (.poolExhausted .int 3) := by decide +kernel
  have hcast : e.reply cast = .error (.poolExhausted .int 3) := by decide +kernel
  have hstrand : cast.strands e := by
    show _ ∧ _ ∧ _ ∧ _ ∧ _ ∧ _ ∧ _
    decide +kernel
  have hkeeps := (refused_keeps_iff .bits16 full print _ hprint).1.mpr id
  obtain ⟨r, hr, hregs⟩ := (refused_keeps_iff .bits16 full cast _ hcast).2 _ _ rfl hstrand
  have hfree : e.regs.firstFree? (TypePolicy.regClass "float") = some "xmm0" := by decide +kernel
  cases hfree.symm.trans hr
  refine ⟨⟨hprint, hkeeps⟩, hcast, by decide +kernel, ?_⟩
  rw [hregs]
  decide +kernel

end Assembly
