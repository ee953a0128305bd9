import Assembly.Proofs.Engine.Effects
import Assembly.Proofs.Engine.Part
import Assembly.Proofs.Machine.Conduct

/-!
# The footprint of a request

What a granted request leaves in the open function: the instructions that it emits, and the
integer registers that are freshly handed out for it.  The instructions overwrite registers
that were handed out before or for the request, registers outside of the pool, and the
registers that the request touches.  `Request.footprint` says so for each request that
emits neither text of its caller nor a call of another function.
-/

namespace Assembly

/-! ## Moves inside a function -/

namespace Move

def lines : Move → List Line
  | instr i => [.instr i]
  | raw t => [.raw t]
  | _ => []

@[simp] theorem flatMap_lines_instrs (is : List Instr) :
    (is.map Move.instr).flatMap lines = is.map .instr := by
  induction is with
  | nil => rfl
  | cons i is ih => rw [List.map_cons, List.flatMap_cons, ih]; rfl

@[simp] theorem lines_instr (i : Instr) : (Move.instr i).lines = [.instr i] := rfl
@[simp] theorem lines_take (c : RegClass) : (Move.take c).lines = [] := rfl
@[simp] theorem lines_give (c : RegClass) (r : Text) : (Move.give c r).lines = [] := rfl

end Move

namespace RegisterFile

/-- The file after a move that does not begin a function. -/
def after (f : RegisterFile) : Move → RegisterFile
  | .take c => (f.alloc? c).elim f (·.2)
  | .give c r => f.free c r
  | .resetRegs => f.reset
  | _ => f

/-- The integer register that a move hands out, if it was free. -/
def fresh (f : RegisterFile) : Move → List Text
  | .take .int => (f.firstFree? .int).toList
  | _ => []

def freshAll (f : RegisterFile) : List Move → List Text
  | [] => []
  | m :: ms => f.fresh m ++ (f.after m).freshAll ms

variable {f : RegisterFile} {m : Move} {ms : List Move}

theorem freshAll_append (f : RegisterFile) (ms ns : List Move) :
    f.freshAll (ms ++ ns) = f.freshAll ms ++ (ms.foldl after f).freshAll ns := by
  induction ms generalizing f with
  | nil => rfl
  | cons m ms ih => rw [List.cons_append, freshAll, freshAll, ih, List.append_assoc]; rfl

theorem after_take {c : RegClass} {r : Text} (h : f.firstFree? c = some r) :
    f.after (.take c) = f.setInUse c (f.inUse c ++ [r]) := by
  rw [after, alloc?_of_firstFree? h]
  rfl

theorem after_take_of_full {c : RegClass} (h : f.firstFree? c = none) : f.after (.take c) = f := by
  rw [after]
  cases ha : f.alloc? c with
  | none => rfl
  | some ag => exact (alloc?_of_full h ha).2

theorem mem_inUse_after {r : Text} (h : r ∈ (f.after m).inUse .int) :
    r ∈ f.inUse .int ∨ r ∈ f.fresh m := by
  cases m with
  | take c =>
    cases hfree : f.firstFree? c with
    | none => rw [after_take_of_full hfree] at h; exact .inl h
    | some s =>
      rw [after_take hfree] at h
      cases c with
      | float => exact .inl h
      | int =>
        rw [inUse_setInUse] at h
        exact (List.mem_append.mp h).imp_right fun hr => by simpa [fresh, hfree] using hr
  | give c s =>
    rw [after, free] at h
    by_cases hc : RegClass.int = c
    · subst hc
      rw [inUse_setInUse] at h
      exact .inl (List.mem_filter.mp h).1
    · rw [inUse_setInUse_of_ne f _ hc] at h
      exact .inl h
  | resetRegs => cases h
  | _ => exact .inl h

theorem mem_inUse_foldl_after {r : Text} (h : r ∈ (ms.foldl after f).inUse .int) :
    r ∈ f.inUse .int ∨ r ∈ f.freshAll ms := by
  induction ms generalizing f with
  | nil => exact .inl h
  | cons m ms ih =>
    rcases ih h with h | h
    · exact (mem_inUse_after h).imp_right (List.mem_append_left _)
    · exact .inr (List.mem_append_right _ h)

theorem target_after (f : RegisterFile) (m : Move) : (f.after m).target = f.target := by
  suffices hkind : (f.after m).kind = f.kind from congrArg Prod.fst hkind
  cases m with
  | take c =>
    cases ha : f.alloc? c with
    | none => rw [after, ha]; rfl
    | some ag => rw [after, ha]; exact kind_alloc? ha
  | give c r => exact kind_setInUse f c _
  | _ => rfl

theorem target_foldl_after (f : RegisterFile) (ms : List Move) :
    (ms.foldl after f).target = f.target := by
  induction ms generalizing f with
  | nil => rfl
  | cons m ms ih => exact (ih _).trans (f.target_after m)

theorem freshAll_mem_pool {r : Text} (h : r ∈ f.freshAll ms) : r ∈ f.target.intPool := by
  induction ms generalizing f with
  | nil => cases h
  | cons m ms ih =>
    rcases List.mem_append.mp h with h | h
    · cases m with
      | take c =>
        cases c with
        | float => cases h
        | int => exact firstFree?_mem_pool (c := .int) (by simpa [fresh] using h)
      | _ => cases h
    · rw [← f.target_after m]
      exact ih h

/-- A register that moves hand out is lent to the code: an integer register was in use
already, or it is a fresh one. -/
theorem lent_of_hands {c : RegClass} {r : Text} (before ns : List Move)
    (h : (before.foldl after f).Hands c r) :
    Lent f.target (fun s => s ∈ f.inUse .int ∨ s ∈ f.freshAll (before ++ .take c :: ns)) r := by
  have hpool := h.mem_pool
  cases c with
  | float =>
    rw [pool, target_foldl_after] at hpool
    obtain ⟨hsp, hbp, hint⟩ := f.target.physical_floatPool r hpool
    exact ⟨hsp, hbp, fun s hs heq => absurd heq (hint s hs)⟩
  | int =>
    have howned : r ∈ f.inUse .int ∨ r ∈ f.freshAll (before ++ .take .int :: ns) := by
      rw [freshAll_append, freshAll]
      -- A permissive file that is full hands out a register in use, which is owned already.
      obtain hfree | ⟨-, hfull, -⟩ := h.cases
      · exact .inr (List.mem_append_right _ (List.mem_append_left _ (by simp [fresh, hfree])))
      · have huse : r ∈ (before.foldl after f).inUse .int := by
          simpa [uses] using uses_of_firstFree?_eq_none hfull hpool
        exact (mem_inUse_foldl_after huse).imp_right (List.mem_append_left _)
    rw [pool, target_foldl_after] at hpool
    obtain ⟨hsp, hbp⟩ := f.target.physical_intPool r hpool
    refine ⟨hsp, hbp, fun s hs heq => ?_⟩
    rwa [← f.target.physical_injOn r hpool s hs heq]

end RegisterFile

namespace Engine

variable (e : Engine)

theorem regs_make_of_inner {m : Move} (h : m.inner) : (e.make m).regs = e.regs.after m := by
  cases m with
  | instr i => exact e.regs_addLine _
  | raw t => exact e.regs_addLine _
  | define name => simp only [make, addSymbol]; split <;> rfl
  | link b => cases b <;> rfl
  | take c =>
    cases ha : e.regs.alloc? c with
    | none => simp [make, take, RegisterFile.after, ha]
    | some ag =>
      rw [RegisterFile.after, ha]
      exact e.regs_take ha
  | enter | leave => cases h
  | _ => rfl

end Engine

/-! ## Requests -/

namespace Request

/-- Whether a request emits neither text of its caller nor a call of another function. -/
def plain : Request → Bool
  | rawLine _ | rawInstr _ | rawBlock _ | call _ _ | callAs _ _ _ => false
  | _ => true

/-- The registers that a request overwrites although they were not handed out for it: the
fixed ones of system calls, and operands that are widened in place. -/
def touches (t : Target) : Request → List Text
  | print v =>
    if v.kind = .string then t.writeClobbers
    else if v.isFloat = false ∧ v.isRegister ∧ t.typeSize v.type < t.wordSize then [v.name]
    else []
  | cast v type =>
    let source := t.typeOrWord v.type
    if TypePolicy.regClass source = .int ∧ TypePolicy.regClass type = .float ∧ v.isRegister ∧
      t.typeSize source < 4 then [v.name]
    else []
  | exit _ => t.exitClobbers
  | _ => []

end Request

/-! ## Footprints -/

/-- The moves stay inside of a function and emit instructions that behave, where registers
in use and fresh registers are owned. -/
structure Footprint (f : RegisterFile) (touched : List Text) (ms : List Move) : Prop where
  inner : ∀ m ∈ ms, m.inner
  conduct : ∃ is : List Instr, ms.flatMap Move.lines = is.map .instr ∧
    Conduct f.target (fun s => s ∈ f.inUse .int ∨ s ∈ f.freshAll ms) touched is

namespace Footprint

variable {f : RegisterFile} {touched : List Text} {c : RegClass} {r : Text}

theorem silent {ms : List Move} (hinner : ∀ m ∈ ms, m.inner)
    (hlines : ms.flatMap Move.lines = []) : Footprint f [] ms :=
  ⟨hinner, [], hlines, .nil f.target _⟩

theorem instrs {is : List Instr} (h : Conduct f.target (· ∈ f.inUse .int) touched is) :
    Footprint f touched (is.map .instr) :=
  ⟨Move.inner_instrs is, is, Move.flatMap_lines_instrs is, h.mono fun _ hs => .inl hs⟩

theorem taken (is : List Instr) {rest : List Move} (hr : f.Hands c r)
    (hinner : ∀ m ∈ rest, m.inner) (hlines : rest.flatMap Move.lines = is.map .instr)
    (h : ∀ owned, Lent f.target owned r → Conduct f.target owned touched is) :
    Footprint f touched (.take c :: rest) := by
  refine ⟨?_, is, hlines, h _ (RegisterFile.lent_of_hands [] rest hr)⟩
  intro m hm
  rcases List.mem_cons.mp hm with rfl | hm
  · rfl
  · exact hinner m hm

theorem scratch (is js : List Instr) (hr : f.Hands c r)
    (h : ∀ owned, Lent f.target owned r → Conduct f.target owned touched (is ++ js)) :
    Footprint f touched (.take c :: (is.map .instr ++ Move.give c r :: js.map .instr)) := by
  refine taken (is ++ js) hr ?_ (by simp) h
  intro m hm
  rcases List.mem_append.mp hm with hm | hm
  · exact Move.inner_instrs is m hm
  · rcases List.mem_cons.mp hm with rfl | hm
    · rfl
    · exact Move.inner_instrs js m hm

/-- A second register is taken besides the first, and given back after the instructions. -/
theorem takenWithScratch (is : List Instr) {d : RegClass} {tmp : Text} (hr : f.Hands c r)
    (htmp : (f.after (.take c)).Hands d tmp)
    (h : ∀ owned, Lent f.target owned r → Lent f.target owned tmp →
      Conduct f.target owned touched is) :
    Footprint f touched (.take c :: .take d :: (is.map .instr ++ [Move.give d tmp])) := by
  have hlent := RegisterFile.lent_of_hands [] (.take d :: (is.map .instr ++ [Move.give d tmp])) hr
  have hscratch := RegisterFile.lent_of_hands [.take c] (is.map .instr ++ [Move.give d tmp]) htmp
  refine ⟨?_, is, by simp, h _ hlent hscratch⟩
  intro m hm
  rcases List.mem_cons.mp hm with rfl | hm
  · rfl
  rcases List.mem_cons.mp hm with rfl | hm
  · rfl
  rcases List.mem_append.mp hm with hm | hm
  · exact Move.inner_instrs is m hm
  · rw [List.mem_singleton.mp hm]
    rfl

end Footprint

/-! ## Operations -/

section Operations

open Emit Move

variable {e : Engine} {ms : List Move} {u : Unit} {a v : Value} {type : Text}

theorem Target.writeClobbers_subset (t : Target) : ∀ r ∈ t.writeClobbers, r ∈ t.intPool := by
  cases t <;> decide

namespace Footprint

theorem release (h : (Emit.release v).Grants e u ms) : Footprint e.regs [] (essence ms) := by
  have hms : ms = (Emit.release v e).2 := by rw [h]
  rw [hms, release_essence]
  split
  · exact silent (by simp [Move.inner]) rfl
  · exact silent (by simp) rfl

theorem load (ht : e.regs.target = e.target) (h : (loadValue v type).Grants e a ms) :
    Footprint e.regs [] (essence ms) := by
  obtain ⟨-, -, rfl⟩ | ⟨-, r, w, type', hr, -, hms⟩ := loadValue_moves h
  · exact silent (by simp) rfl
  · rw [hms, ← ht]
    exact taken [_] hr (inner_instrs [_]) rfl
      fun _ hl => .put (e.regs.target.load_puts w r type') hl

theorem intToFloat (ht : e.regs.target = e.target) (h : (Emit.intToFloat v type).Grants e a ms) :
    Footprint e.regs (if v.isRegister ∧ e.target.typeSize v.type < 4 then [v.name] else [])
      (essence ms) := by
  obtain ⟨r, hr, -, ⟨hv, hms⟩ | ⟨hv, tmp, htmp, hms⟩⟩ := intToFloat_moves h
  · rw [hms, ← ht]
    refine taken _ hr (inner_instrs _) (flatMap_lines_instrs _) fun owned hl => ?_
    simpa [hv] using Conduct.regToFloat v type hl
  · rw [hms, ← ht, if_neg (by simp [hv])]
    rw [← e.make_take, e.regs_make_of_inner rfl] at htmp
    exact takenWithScratch _ hr htmp fun owned hl htmp => .operandToFloat v type hl htmp

theorem floatToInt (ht : e.regs.target = e.target) (h : (Emit.floatToInt v type).Grants e a ms) :
    Footprint e.regs [] (essence ms) := by
  obtain ⟨r, hr, -, hms | ⟨c, tmp, w, srcType, htmp, -, hms⟩⟩ := floatToInt_moves h
  · rw [hms, ← ht]
    exact taken [_] hr (inner_instrs [_]) rfl
      fun _ hl => .put (e.regs.target.floatToInt_puts r type v.name v.type) hl
  · rw [hms, ← ht]
    rw [← e.make_take, e.regs_make_of_inner rfl] at htmp
    refine takenWithScratch [e.regs.target.load tmp w srcType,
      e.regs.target.floatToInt r tmp srcType type] hr htmp fun owned hl hscratch => ?_
    exact (Conduct.put (e.regs.target.load_puts w tmp srcType) hscratch).append
      (.put (e.regs.target.floatToInt_puts r type tmp srcType) hl)

theorem cast (ht : e.regs.target = e.target) (h : (Emit.cast v type).Grants e a ms) :
    Footprint e.regs ((Request.cast v type).touches e.target) (essence ms) := by
  simp only [Emit.cast, grants_ite, grants_throw, if_false_left] at h
  obtain ⟨-, h⟩ := h
  rw [grants_bind] at h
  obtain ⟨_, ms₁, hcheck, ms₂, h, rfl⟩ := h
  have hq := checkType_quiet hcheck
  rw [grants_read_bind] at h
  rw [essence_append, hq, List.nil_append, Request.touches, ← e.makeAll_target ms₁,
    ← e.regs_makeAll_of_quiet hq]
  -- The check of the type is quiet, so the footprint may be taken after it.
  have ht₁ : (e.makeAll ms₁).regs.target = (e.makeAll ms₁).target := by
    rw [e.regs_makeAll_of_quiet hq, e.makeAll_target, ht]
  generalize e.makeAll ms₁ = e₁ at h ht₁ ⊢
  dsimp only [Value.withType] at h ⊢
  split at h
  case h_1 hsrc hdst =>
    obtain ⟨r, hr, -, hms⟩ := intToInt_moves h
    rw [hms, if_neg (by simp [hdst]), ← ht₁]
    exact taken [_] hr (inner_instrs [_]) rfl
      fun _ hl => .put (e₁.regs.target.intToInt_puts _ r type) hl
  case h_2 hsrc hdst => simpa [hsrc, hdst, Value.isRegister] using intToFloat ht₁ h
  case h_3 hsrc hdst => simpa [hsrc] using floatToInt ht₁ h
  case h_4 hsrc hdst =>
    obtain ⟨r, w, hr, -, hms⟩ := floatToFloat_moves h
    rw [hms, if_neg (by simp [hsrc]), ← ht₁]
    exact taken [_] hr (inner_instrs [_]) rfl
      fun _ hl => .put (e₁.regs.target.floatToFloat_puts w r type) hl

theorem printInt (ht : e.regs.target = e.target) (h : (Emit.printInt v).Grants e u ms) :
    Footprint e.regs (if v.isRegister ∧ e.target.typeSize v.type < e.target.wordSize then [v.name]
      else []) (essence ms) := by
  obtain ⟨hv, hms⟩ | ⟨hv, r, type, hr, hms⟩ := printInt_moves h
  · rw [hms, ← ht]
    have hwiden := Conduct.widening e.regs.target (· ∈ e.regs.inUse .int) v
    have hcall := Conduct.callWithWord e.regs.target (· ∈ e.regs.inUse .int) v.name "print_int"
    simpa [hv] using instrs (hwiden.append hcall)
  · rw [hms, if_neg (by simp [hv]), ← ht]
    refine scratch [e.regs.target.intLoad r v type, .push r]
      (e.regs.target.callThenDrop "print_int" 1) hr fun owned hl => ?_
    exact (Conduct.put (e.regs.target.intLoad_puts v r type) hl).append (.callWithWord _ owned r _)

theorem printFloat (ht : e.regs.target = e.target) (h : (Emit.printFloat v).Grants e u ms) :
    Footprint e.regs [] (essence ms) := by
  obtain ⟨reg, hms⟩ | ⟨r, w, type, hr, hms⟩ := printFloat_moves h
  · rw [hms, ← ht]
    exact instrs (.callWithSingle _ _ reg _)
  · rw [hms, ← ht, List.append_assoc]
    refine scratch (e.regs.target.narrow r w type :: e.regs.target.singlePush r)
      [.mk .call [.sym "print_float"], e.regs.target.drop 8] hr fun owned hl => ?_
    exact (Conduct.put (e.regs.target.narrow_puts w r type) hl).append (.callWithSingle _ owned r _)

theorem printString {s : Text} (ht : e.regs.target = e.target)
    (h : (Emit.printString s).Grants e u ms) :
    Footprint e.regs e.target.writeClobbers (essence ms) := by
  obtain ⟨label, hms⟩ := printString_moves h
  rw [hms, ← ht]
  refine instrs (.writeCall label (s.length + 1) fun r hr => ?_)
  obtain ⟨hclobber, huses⟩ := List.mem_filter.mp hr
  exact ⟨Target.writeClobbers_subset _ r hclobber, by simpa [RegisterFile.uses] using huses⟩

theorem print (ht : e.regs.target = e.target) (h : (Emit.print v).Grants e u ms) :
    Footprint e.regs ((Request.print v).touches e.target) (essence ms) := by
  simp only [Emit.print, grants_ite] at h
  rw [Request.touches]
  split at h
  case isTrue hs => rw [if_pos hs]; exact printString ht h
  case isFalse hs =>
    rw [if_neg hs]
    split at h
    case isTrue hf => rw [if_neg (by simp [hf])]; exact printFloat ht h
    case isFalse hf => simpa [hf] using printInt ht h

theorem exit {code : Int} (ht : e.regs.target = e.target) (h : (Emit.exit code).Grants e u ms) :
    Footprint e.regs e.target.exitClobbers (essence ms) := by
  simp only [Emit.exit, grants_read_bind, grants_instrs] at h
  rw [h, essence_instrs, ← ht]
  exact instrs (.exitCall code)

theorem param {f : FunctionRef} {name : Text} (ht : e.regs.target = e.target)
    (h : (Emit.param f name).Grants e a ms) : Footprint e.regs [] (essence ms) := by
  obtain ⟨g, -, -, ⟨-, rfl⟩ | ⟨-, r, type, slot, hr, -, hms⟩⟩ := param_moves h
  · exact silent (by simp) rfl
  · rw [hms, ← ht]
    exact taken [_] hr (by simp [Move.inner]) rfl
      fun _ hl => .put (e.regs.target.fetch_puts r type slot) hl

theorem returnValue {f : FunctionRef} (ht : e.regs.target = e.target)
    (h : (Emit.returnValue f v).Grants e u ms) : Footprint e.regs [] (essence ms) := by
  obtain ⟨hint, hfloat⟩ := e.regs.target.lent_returnReg (· ∈ e.regs.inUse .int)
  obtain ⟨w, hms | hms⟩ := returnValue_moves h
  · rw [hms, ← ht]
    exact instrs (.put (e.regs.target.floatReturn_puts w) hfloat)
  · rw [hms, ← ht]
    exact instrs (.put (e.regs.target.intReturn_puts w) hint)

theorem of_quiet (h : essence ms = []) : Footprint e.regs [] (essence ms) := by
  rw [h]
  exact silent (by simp) rfl

end Footprint

/-- A plain request inside of a function has the footprint of the registers it touches. -/
theorem Request.footprint {q : Request} {r : Reply} (ht : e.regs.target = e.target)
    (hplain : q.plain) (hq : q.within) (h : q.emit.Grants e r ms) :
    Footprint e.regs (q.touches e.target) (essence ms) := by
  cases q with
  | rawLine | rawInstr | rawBlock | call | callAs => cases hplain
  | beginFunction | endFunction => cases hq
  | declareGlobal name type =>
    obtain ⟨_, h, -⟩ := grants_map.mp h
    exact .of_quiet (declareGlobal_moves h).2
  | declareConst name lit type =>
    obtain ⟨_, h, -⟩ := grants_map.mp h
    exact .of_quiet (declareConst_moves h).2
  | finalize =>
    obtain ⟨_, h, -⟩ := grants_map.mp h
    exact .of_quiet (finalize_quiet h)
  | alloc type =>
    obtain ⟨_, h, -⟩ := grants_map.mp h
    obtain ⟨r, -, -, hms⟩ := allocRegAs_moves h
    rw [hms]
    exact .silent (by simp [Move.inner]) rfl
  | release v =>
    obtain ⟨_, h, -⟩ := grants_map.mp h
    exact .release h
  | load v type =>
    obtain ⟨_, h, -⟩ := grants_map.mp h
    exact .load ht h
  | cast v type =>
    obtain ⟨_, h, -⟩ := grants_map.mp h
    exact .cast ht h
  | print v =>
    obtain ⟨_, h, -⟩ := grants_map.mp h
    exact .print ht h
  | printFloat v =>
    obtain ⟨_, h, -⟩ := grants_map.mp h
    exact .printFloat ht h
  | exit code =>
    obtain ⟨_, h, -⟩ := grants_map.mp h
    exact .exit ht h
  | declareLocal f name type =>
    obtain ⟨_, h, -⟩ := grants_map.mp h
    rw [(declareLocal_moves h).2]
    exact .silent (by simp [Move.inner]) rfl
  | param f name =>
    obtain ⟨_, h, -⟩ := grants_map.mp h
    exact .param ht h
  | returnValue f v =>
    obtain ⟨_, h, -⟩ := grants_map.mp h
    exact .returnValue ht h
  | resetRegs =>
    obtain ⟨_, h, -⟩ := grants_map.mp h
    rw [grants_move.mp h]
    exact .silent (List.forall_mem_singleton.mpr rfl) rfl

end Operations

end Assembly
