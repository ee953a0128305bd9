import Assembly.Proofs.Engine.Effects
import Assembly.Proofs.Register.Roster

/-!
# What granted operations do to the registers

An operation of a strict engine that is granted does one of two things to the register
file.  It keeps the file: whatever registers it took for itself are free again.  Or it
acquires: one register that was free is in use afterwards, and the operation answers with
its handle.
-/

namespace Assembly

namespace Engine

open Move

/-- The identity of the open function and the parameters it has fetched. -/
def cached (e : Engine) : Option (Nat × Bindings) := e.current.map fun f => (f.id, f.cached)

/-- After the moves the registers in use and the fetched parameters are as before. -/
structure Keeps (e : Engine) (ms : List Move) : Prop where
  regs : (e.makeAll ms).regs = e.regs
  cached : (e.makeAll ms).cached = e.cached

/-- After the moves one more register is in use, the one that the handle names. -/
structure Acquires (e : Engine) (ms : List Move) (v : Value) : Prop where
  isRegister : v.isRegister
  free : e.regs.firstFree? v.regClass = some v.name
  regs : (e.makeAll ms).regs =
    e.regs.setInUse v.regClass (e.regs.inUse v.regClass ++ [v.name])
  cached : (e.makeAll ms).cached = e.cached

variable {e : Engine} {ms ns : List Move} {c : RegClass} {r : Text} {v : Value}

theorem cached_makeAll (e : Engine) (ms : List Move) :
    (e.makeAll ms).cached = (e.makeAll (essence ms)).cached := by
  rw [cached, cached, current_makeAll]

theorem cached_addLine (e : Engine) (l : Line) : (e.addLine l).cached = e.cached := by
  rw [addLine]
  cases h : e.current <;> simp [cached, h, Frame.addLine]

/-! ## Keeping -/

namespace Keeps

theorem of_essence (h : e.Keeps (essence ms)) : e.Keeps ms :=
  ⟨(e.regs_makeAll ms).trans h.regs, (e.cached_makeAll ms).trans h.cached⟩

theorem essence (h : e.Keeps ms) : e.Keeps (Move.essence ms) :=
  ⟨(e.regs_makeAll ms).symm.trans h.regs, (e.cached_makeAll ms).symm.trans h.cached⟩

theorem nil (e : Engine) : e.Keeps [] := ⟨rfl, rfl⟩

theorem append (h : e.Keeps ms) (h' : (e.makeAll ms).Keeps ns) : e.Keeps (ms ++ ns) := by
  refine ⟨?_, ?_⟩
  · rw [makeAll_append]; exact h'.regs.trans h.regs
  · rw [makeAll_append]; exact h'.cached.trans h.cached

theorem each {α : Type} (f : α → Move) (h : ∀ e x, Keeps e [f x]) (e : Engine) (xs : List α) :
    e.Keeps (xs.map f) := by
  induction xs generalizing e with
  | nil => exact nil e
  | cons x xs ih => exact (h e x).append (ih _)

theorem instrs (e : Engine) (is : List Instr) : e.Keeps (is.map .instr) :=
  each .instr (fun e i => ⟨e.regs_addLine (.instr i), e.cached_addLine (.instr i)⟩) e is

theorem raws (e : Engine) (ts : List Text) : e.Keeps (ts.map .raw) :=
  each .raw (fun e t => ⟨e.regs_addLine (.raw t), e.cached_addLine (.raw t)⟩) e ts

end Keeps

theorem cached_take (e : Engine) (c : RegClass) : (e.take c).cached = e.cached := by
  have hclobber : ∀ (f : Frame) (r : Text), (f.noteClobber r).id = f.id ∧
      (f.noteClobber r).cached = f.cached := by
    intro f r
    rw [Frame.noteClobber]
    split <;> exact ⟨rfl, rfl⟩
  obtain h | ⟨a, g, -, h | h⟩ := e.take_cases c
  · rw [h]
  · rw [h]; rfl
  · rw [h]
    cases hc : e.current <;> simp [cached, hc, hclobber]

theorem regs_take_of_strict (hs : e.regs.strict) (h : e.regs.Hands c r) :
    (e.take c).regs = e.regs.setInUse c (e.regs.inUse c ++ [r]) :=
  e.regs_take (RegisterFile.alloc?_of_firstFree? (h.firstFree? hs))

/-- A register that is taken and given back is free again. -/
theorem Keeps.scratch (hs : e.regs.strict) (h : e.regs.Hands c r) (is : List Instr) :
    e.Keeps (Move.take c :: is.map .instr ++ [Move.give c r]) := by
  have hkeep := Keeps.instrs (e.take c) is
  refine ⟨?_, ?_⟩
  · rw [List.cons_append, makeAll_cons, makeAll_append]
    show RegisterFile.free ((e.take c).makeAll (is.map .instr)).regs c r = e.regs
    rw [hkeep.regs, regs_take_of_strict hs h]
    exact RegisterFile.free_setInUse_append (RegisterFile.firstFree?_notMem (h.firstFree? hs))
  · rw [List.cons_append, makeAll_cons, makeAll_append]
    show ((e.take c).makeAll (is.map .instr)).cached = e.cached
    rw [hkeep.cached, cached_take]

/-! ## Acquiring -/

namespace Acquires

theorem of_essence (h : e.Acquires (essence ms) v) : e.Acquires ms v :=
  ⟨h.isRegister, h.free, (e.regs_makeAll ms).trans h.regs, (e.cached_makeAll ms).trans h.cached⟩

theorem take {type : Text} (hs : e.regs.strict) (h : e.regs.Hands (TypePolicy.regClass type) r)
    (temp : Bool) : e.Acquires [.take (TypePolicy.regClass type)] (.ofRegister r type temp) :=
  ⟨rfl, h.firstFree? hs, regs_take_of_strict hs h, cached_take e _⟩

theorem append_keeps (h : e.Acquires ms v) (h' : (e.makeAll ms).Keeps ns) :
    e.Acquires (ms ++ ns) v := by
  refine ⟨h.isRegister, h.free, ?_, ?_⟩
  · rw [makeAll_append]; exact h'.regs.trans h.regs
  · rw [makeAll_append]; exact h'.cached.trans h.cached

end Acquires

theorem Keeps.append_acquires (h : e.Keeps ms) (h' : (e.makeAll ms).Acquires ns v) :
    e.Acquires (ms ++ ns) v := by
  have hfree := h'.free
  have hregs := h'.regs
  rw [h.regs] at hfree hregs
  exact ⟨h'.isRegister, hfree, by rw [makeAll_append]; exact hregs,
    by rw [makeAll_append]; exact h'.cached.trans h.cached⟩

end Engine

/-! ## Operations -/

namespace Emit

open Move Engine

variable {e : Engine} {ms : List Move} {u : Unit} {a v : Value} {type name : Text}

theorem keeps_of_quiet (h : essence ms = []) : e.Keeps ms := .of_essence (h ▸ .nil e)

/-- A release takes back the register of a temporary handle; other handles keep theirs. -/
theorem release_registers (hv : v.isRegister) (h : (release v).Grants e u ms) :
    (e.makeAll ms).regs = (if v.temp then e.regs.free v.regClass v.name else e.regs) ∧
      (e.makeAll ms).cached = e.cached := by
  have hms : essence ms = if v.isRegister ∧ v.temp ∧ e.regs.uses v.regClass v.name then
      [.give v.regClass v.name] else [] := by
    have hmoves := release_essence v e
    rw [h] at hmoves
    exact hmoves
  rw [regs_makeAll, cached_makeAll, hms]
  split
  case isTrue hgive =>
    rw [if_pos hgive.2.1]
    exact ⟨rfl, rfl⟩
  case isFalse hkeep =>
    -- Nothing is given back, and taking back a register that is not in use does nothing.
    refine ⟨?_, rfl⟩
    split
    case isTrue htemp =>
      have hfree : v.name ∉ e.regs.inUse v.regClass := fun hmem =>
        hkeep ⟨hv, htemp, by simpa [RegisterFile.uses] using hmem⟩
      rw [RegisterFile.free_of_notMem hfree]
      rfl
    case isFalse => rfl

theorem release_keeps {ns : List Move} (h : e.Acquires ms v) (htemp : v.temp)
    (hr : (release v).Grants (e.makeAll ms) u ns) : e.Keeps (ms ++ ns) := by
  obtain ⟨hregs, hcached⟩ := release_registers h.isRegister hr
  rw [if_pos htemp, h.regs] at hregs
  refine ⟨?_, ?_⟩
  · rw [makeAll_append, hregs]
    exact RegisterFile.free_setInUse_append (RegisterFile.firstFree?_notMem h.free)
  · rw [makeAll_append, hcached]
    exact h.cached

theorem allocReg_acquires (hs : e.regs.strict) (h : (allocReg type).Grants e a ms) :
    e.Acquires ms a ∧ a.temp := by
  obtain ⟨r, hr, rfl, hms⟩ := allocRegAs_moves h
  exact ⟨.of_essence (hms ▸ .take hs hr true), rfl⟩

/-- A load of a register is that register; any other load acquires. -/
theorem loadValue_acquires (hs : e.regs.strict) (h : (loadValue v type).Grants e a ms) :
    (v.isRegister ∧ a = v ∧ ms = []) ∨ v.isRegister = false ∧ e.Acquires ms a ∧ a.temp := by
  obtain h | ⟨hv, r, w, type', hr, rfl, hms⟩ := loadValue_moves h
  · exact .inl h
  · refine .inr ⟨hv, .of_essence ?_, rfl⟩
    rw [hms]
    exact (Acquires.take hs hr true).append_keeps (.instrs _ [_])

theorem pushArg_keeps (hs : e.regs.strict) (h : (pushArg v).Grants e u ms) : e.Keeps ms := by
  refine .of_essence ?_
  obtain ⟨is, hms⟩ | ⟨r, hr, is, hms⟩ := pushArg_moves h
  · rw [hms]; exact .instrs e is
  · rw [hms]; exact .scratch hs hr is

theorem pushArgs_keeps {callee : Text} {index : Nat} {args : List Value} (hs : e.regs.strict)
    (h : (pushArgs callee index args).Grants e u ms) : e.Keeps ms := by
  induction args generalizing index u ms with
  | nil =>
    obtain ⟨-, rfl⟩ := grants_pure.mp h
    exact .nil e
  | cons arg rest ih =>
    rw [pushArgs, grants_bind] at h
    obtain ⟨_, ms₁, hrest, ms₂, harg, rfl⟩ := h
    exact (ih hrest).append (pushArg_keeps (by simpa using hs) (grants_rewording.mp harg))

theorem callAs_acquires {args : List Value} (hs : e.regs.strict)
    (h : (callAs name args type).Grants e a ms) : e.Acquires ms a ∧ a.temp := by
  obtain ⟨ms₁, r, hargs, hr, rfl, hms⟩ := callAs_moves h
  have hpush : e.Keeps ms₁ := pushArgs_keeps hs hargs
  have hcall := hpush.essence.append (.instrs _ (e.target.callThenDrop name args.length))
  rw [hpush.regs, ← hcall.regs] at hr
  have hacq := (Acquires.take (by simpa using hs) hr true).append_keeps
    (.instrs _ [e.target.resultMove r type])
  refine ⟨.of_essence ?_, rfl⟩
  rw [hms]
  exact hcall.append_acquires hacq

theorem call_acquires {args : List Value} (hs : e.regs.strict)
    (h : (call name args).Grants e a ms) : e.Acquires ms a ∧ a.temp := by
  rw [call, grants_read_bind] at h
  exact callAs_acquires hs h

theorem cast_acquires (hs : e.regs.strict) (h : (cast v type).Grants e a ms) :
    e.Acquires ms a ∧ a.temp := by
  simp only [cast, grants_ite, grants_throw, if_false_left] at h
  obtain ⟨-, h⟩ := h
  rw [grants_bind] at h
  obtain ⟨_, ms₁, hcheck, ms₂, h, rfl⟩ := h
  have hkeep : e.Keeps ms₁ := keeps_of_quiet (checkType_quiet hcheck)
  have hs₁ : (e.makeAll ms₁).regs.strict := by simpa using hs
  -- The check of the type takes no register; each kind of cast takes one for its result.
  suffices hsuff : (e.makeAll ms₁).Acquires ms₂ a ∧ a.temp from
    ⟨hkeep.append_acquires hsuff.1, hsuff.2⟩
  rw [grants_read_bind] at h
  generalize e.makeAll ms₁ = e₁ at h hs₁ ⊢
  split at h
  · obtain ⟨r, hr, rfl, hms⟩ := intToInt_moves h
    refine ⟨.of_essence ?_, rfl⟩
    rw [hms]
    exact (Acquires.take hs₁ hr true).append_keeps (.instrs _ [_])
  · obtain ⟨r, hr, rfl, ⟨-, hms⟩ | ⟨-, tmp, htmp, hms⟩⟩ := intToFloat_moves h
    · refine ⟨.of_essence ?_, rfl⟩
      rw [hms]
      exact (Acquires.take hs₁ hr true).append_keeps (.instrs _ _)
    · refine ⟨.of_essence ?_, rfl⟩
      rw [hms]
      exact (Acquires.take hs₁ hr true).append_keeps
        (.scratch (by simpa using hs₁) htmp (e₁.target.operandToFloat r tmp _ type))
  · obtain ⟨r, hr, rfl, hms | ⟨c, tmp, w, srcType, htmp, rfl, hms⟩⟩ := floatToInt_moves h
    · refine ⟨.of_essence ?_, rfl⟩
      rw [hms]
      exact (Acquires.take hs₁ hr true).append_keeps (.instrs _ [_])
    · refine ⟨.of_essence ?_, rfl⟩
      rw [hms]
      exact (Acquires.take hs₁ hr true).append_keeps (.scratch (by simpa using hs₁) htmp [_, _])
  · obtain ⟨r, w, hr, rfl, hms⟩ := floatToFloat_moves h
    refine ⟨.of_essence ?_, rfl⟩
    rw [hms]
    exact (Acquires.take hs₁ hr true).append_keeps (.instrs _ [_])

theorem printFloat_keeps (hs : e.regs.strict) (h : (printFloat v).Grants e u ms) : e.Keeps ms := by
  refine .of_essence ?_
  obtain ⟨reg, hms⟩ | ⟨r, w, type, hr, hms⟩ := printFloat_moves h
  · rw [hms]; exact .instrs e _
  · rw [hms]; exact (Keeps.scratch hs hr _).append (.instrs _ [_, _])

theorem print_keeps (hs : e.regs.strict) (h : (print v).Grants e u ms) : e.Keeps ms := by
  simp only [print, grants_ite] at h
  split at h
  · obtain ⟨label, hms⟩ := printString_moves h
    exact .of_essence (hms ▸ .instrs e _)
  · split at h
    · exact printFloat_keeps hs h
    · refine .of_essence ?_
      obtain ⟨-, hms⟩ | ⟨-, r, type, hr, hms⟩ := printInt_moves h
      · rw [hms]; exact .instrs e _
      · rw [hms]; exact (Keeps.scratch hs hr [_, _]).append (.instrs _ _)

theorem exit_keeps {code : Int} (h : (exit code).Grants e u ms) : e.Keeps ms := by
  rw [exit, grants_read_bind, grants_instrs] at h
  rw [h]
  exact .instrs e _

theorem returnValue_keeps {f : FunctionRef} (h : (returnValue f v).Grants e u ms) : e.Keeps ms := by
  obtain ⟨w, hms | hms⟩ := returnValue_moves h
  · exact .of_essence (hms ▸ .instrs e [_])
  · exact .of_essence (hms ▸ .instrs e [_])

theorem block_keeps {code : Text} (h : (block code).Grants e u ms) : e.Keeps ms := by
  rw [block, grants_moves] at h
  rw [h]
  exact .raws e _

theorem declareLocal_keeps {f : FunctionRef} (h : (declareLocal f name type).Grants e a ms) :
    e.Keeps ms := by
  refine .of_essence ?_
  rw [(declareLocal_moves h).2]
  refine ⟨rfl, ?_⟩
  show (e.mapCurrent _).cached = e.cached
  rw [cached, cached, mapCurrent, Option.map_map]
  rfl

/-- A function begins with all registers free and no parameter fetched. -/
theorem beginFunction_registers {f : FunctionRef} {params : List Param}
    (h : (beginFunction name params).Grants e f ms) :
    (e.makeAll ms).regs = e.regs.reset ∧ (e.makeAll ms).cached = some (f.id, []) := by
  obtain ⟨hnone, rfl, hms⟩ := beginFunction_moves h
  rw [regs_makeAll, cached_makeAll, hms, makeAll_cons, makeAll_nil, make, Engine.enter, hnone]
  exact ⟨rfl, rfl⟩

theorem endFunction_registers {f : FunctionRef} (h : (endFunction f).Grants e u ms) :
    (e.makeAll ms).regs = e.regs ∧ (e.makeAll ms).cached = none := by
  rw [regs_makeAll, cached_makeAll, endFunction_moves h, makeAll_cons, makeAll_nil, make,
    Engine.leave]
  cases hc : e.current with
  | none => exact ⟨rfl, by rw [cached, hc]; rfl⟩
  | some g => exact ⟨rfl, rfl⟩

/-- A parameter that was fetched before is found again.  The first fetch acquires a
register, which the function keeps. -/
theorem param_acquires {f : FunctionRef} (hs : e.regs.strict) (h : (param f name).Grants e a ms) :
    ∃ cached, e.cached = some (f.id, cached) ∧
      ((cached.get? name = some a ∧ ms = []) ∨
        cached.get? name = none ∧ a.temp = false ∧ ∃ ms₁, e.Acquires ms₁ a ∧
          (e.makeAll ms).regs = (e.makeAll ms₁).regs ∧
          (e.makeAll ms).cached = some (f.id, cached.insert name a)) := by
  obtain ⟨g, hg, hid, hcases⟩ := param_moves h
  have hcached : e.cached = some (f.id, g.cached) := by rw [cached, hg, Option.map_some, hid]
  refine ⟨g.cached, hcached, ?_⟩
  obtain h | ⟨hnone, r, type, slot, hr, rfl, hms⟩ := hcases
  · exact .inl h
  · have hacq : e.Acquires [.take (TypePolicy.regClass type),
        .instr (e.target.fetch r type slot)] (.ofRegister r type false) :=
      (Acquires.take hs hr false).append_keeps (.instrs _ [_])
    refine .inr ⟨hnone, rfl, _, hacq, ?_, ?_⟩
    · rw [regs_makeAll, hms]
      rfl
    · -- The handle goes into the cache last, when the register is in use already.
      have hlast : ∀ e₁ : Engine, (e₁.make (.cache name (.ofRegister r type false))).cached =
          e₁.cached.map fun p => (p.1, p.2.insert name (.ofRegister r type false)) := by
        intro e₁
        cases hc : e₁.current <;> simp [cached, make, mapCurrent, hc, Frame.cache]
      have hsplit : essence ms = [Move.take (TypePolicy.regClass type),
          .instr (e.target.fetch r type slot)] ++ [Move.cache name (.ofRegister r type false)] := hms
      rw [cached_makeAll, hsplit, makeAll_append, makeAll_cons, makeAll_nil, hlast, hacq.cached,
        hcached]
      rfl

end Emit

end Assembly
