import Assembly.Engine.Request
import Assembly.Proofs.Register.File

/-!
# What moves keep

The target of an engine never changes, nor do the target and the mode of its register file.

Some moves are quiet: they add storage, symbols, routines or log entries, and neither the
registers nor the code of a function depends on them.  The essence of a list of moves is
what is left without the quiet ones.  `core_makeAll` says that the essence alone decides
the part of the engine that is not quiet.
-/

namespace Assembly

namespace Engine

variable (e : Engine)

/-! ## Target and mode -/

theorem take_cases (c : RegClass) :
    e.take c = e ∨ ∃ a g, e.regs.alloc? c = some (a, g) ∧
      (e.take c = { e with regs := g } ∨
        e.take c = { e with regs := g, current := e.current.map (·.noteClobber a.reg) }) := by
  rw [take]
  cases h : e.regs.alloc? c with
  | none => exact .inl rfl
  | some ag =>
    refine .inr ⟨ag.1, ag.2, rfl, ?_⟩
    dsimp only
    split
    · exact .inr rfl
    · exact .inl rfl

/-- The target stays, and so do the target and the mode of the register file. -/
theorem make_fixed (m : Move) :
    (e.make m).target = e.target ∧ (e.make m).regs.kind = e.regs.kind := by
  cases m with
  | instr | raw => simp only [make, addLine]; split <;> exact ⟨rfl, rfl⟩
  | define => simp only [make, addSymbol]; split <;> exact ⟨rfl, rfl⟩
  | link b => cases b <;> exact ⟨rfl, rfl⟩
  | take c =>
    rw [make]
    obtain h | ⟨a, g, ha, h | h⟩ := e.take_cases c
    · rw [h]; exact ⟨rfl, rfl⟩
    · rw [h]; exact ⟨rfl, RegisterFile.kind_alloc? ha⟩
    · rw [h]; exact ⟨rfl, RegisterFile.kind_alloc? ha⟩
  | give c r => exact ⟨rfl, e.regs.kind_setInUse c _⟩
  | enter => simp only [make, enter]; split <;> exact ⟨rfl, rfl⟩
  | leave => simp only [make, leave]; split <;> exact ⟨rfl, rfl⟩
  | _ => exact ⟨rfl, rfl⟩

@[simp] theorem makeAll_target (ms : List Move) : (e.makeAll ms).target = e.target := by
  induction ms generalizing e with
  | nil => rfl
  | cons m ms ih => rw [makeAll_cons, ih, (e.make_fixed m).1]

@[simp] theorem serve_target (q : Request) : (e.serve q).target = e.target := e.makeAll_target _

@[simp] theorem serveAll_target (qs : List Request) : (e.serveAll qs).target = e.target := by
  induction qs generalizing e with
  | nil => rfl
  | cons q qs ih => exact (ih (e.serve q)).trans (e.serve_target q)

@[simp] theorem makeAll_regs_kind (ms : List Move) : (e.makeAll ms).regs.kind = e.regs.kind := by
  induction ms generalizing e with
  | nil => rfl
  | cons m ms ih => rw [makeAll_cons, ih, (e.make_fixed m).2]

@[simp] theorem makeAll_regs_strict (ms : List Move) :
    (e.makeAll ms).regs.strict = e.regs.strict :=
  congrArg Prod.snd (e.makeAll_regs_kind ms)

theorem serveAll_regs_strict (qs : List Request) : (e.serveAll qs).regs.strict = e.regs.strict := by
  induction qs generalizing e with
  | nil => rfl
  | cons q qs ih => exact (ih (e.serve q)).trans (e.makeAll_regs_strict _)

@[simp] theorem take_regs_strict (c : RegClass) : (e.take c).regs.strict = e.regs.strict :=
  congrArg Prod.snd (e.make_fixed (.take c)).2

theorem make_take (c : RegClass) : e.make (.take c) = e.take c := rfl

theorem regs_take {c : RegClass} {a : Allocation} {g : RegisterFile}
    (h : e.regs.alloc? c = some (a, g)) : (e.take c).regs = g := by
  rw [take, h]
  dsimp only
  split <;> rfl

theorem uses_take {c : RegClass} {r : Text} (h : e.regs.Hands c r) : (e.take c).regs.uses c r := by
  obtain ⟨fresh, g, ha⟩ := h
  rw [e.regs_take ha]
  exact RegisterFile.uses_of_alloc? ha

@[simp] theorem regs_addLine (l : Line) : (e.addLine l).regs = e.regs := by
  rw [addLine]
  split <;> rfl

@[simp] theorem regs_makeAll_instrs (is : List Instr) :
    (e.makeAll (is.map .instr)).regs = e.regs := by
  induction is generalizing e with
  | nil => rfl
  | cons i is ih => exact (ih _).trans (e.regs_addLine (.instr i))

/-! ## Quiet moves -/

/-- The engine without its storage, symbols, routines, counters and log. -/
def core : Engine :=
  { e with
    bss := [], data := [], builtins := [], symbols := [], printBuffers := 0, literals := 0,
    printIntAdded := false, printFloatAdded := false, log := [] }

end Engine

namespace Move

/-- Whether neither registers nor code change by the move. -/
def quiet : Move → Bool
  | reserve _ | store _ | define _ | countLiteral | countPrint | link _ | log _ _ _ => true
  | _ => false

/-- The moves that are not quiet. -/
def essence (ms : List Move) : List Move := ms.filter fun m => !m.quiet

@[simp] theorem essence_nil : essence [] = [] := rfl

@[simp] theorem essence_append (ms ns : List Move) : essence (ms ++ ns) = essence ms ++ essence ns :=
  List.filter_append ..

theorem essence_cons (m : Move) (ms : List Move) :
    essence (m :: ms) = if m.quiet then essence ms else m :: essence ms := by
  cases h : m.quiet <;> simp [essence, h]

@[simp] theorem essence_instrs (is : List Instr) : essence (is.map .instr) = is.map .instr := by
  rw [essence, List.filter_eq_self]
  intro m hm
  obtain ⟨i, -, rfl⟩ := List.mem_map.mp hm
  rfl

end Move

namespace Engine

open Move

variable {e : Engine} {m : Move} {ms : List Move}

theorem core_make_of_quiet (h : m.quiet) : (e.make m).core = e.core := by
  cases m with
  | define name => simp only [make, addSymbol]; split <;> rfl
  | link b => cases b <;> rfl
  | reserve | store | countLiteral | countPrint | log => rfl
  | _ => cases h

/-- What a move does to the core is decided by the core. -/
theorem core_make_core (e : Engine) (m : Move) : (e.core.make m).core = (e.make m).core := by
  cases m with
  | instr | raw =>
    simp only [make, addLine]
    cases h : e.current <;> simp [core, h]
  | define name => rw [core_make_of_quiet rfl, core_make_of_quiet rfl]; rfl
  | link b => cases b <;> rfl
  | take c =>
    simp only [make, take]
    cases h : e.regs.alloc? c with
    | none => simp [core, h]
    | some ag =>
      dsimp only [core]
      simp only [h]
      split <;> rfl
  | enter name params =>
    simp only [make, enter]
    cases h : e.current <;> simp [core, h, nextId]
  | leave =>
    simp only [make, leave]
    cases h : e.current <;> simp [core, h]
  | _ => rfl

theorem core_makeAll_core (e : Engine) (ms : List Move) :
    (e.core.makeAll ms).core = (e.makeAll ms).core := by
  induction ms generalizing e with
  | nil => rfl
  | cons m ms ih =>
    calc (e.core.makeAll (m :: ms)).core = ((e.core.make m).core.makeAll ms).core := (ih _).symm
      _ = ((e.make m).core.makeAll ms).core := by rw [core_make_core]
      _ = (e.makeAll (m :: ms)).core := ih _

/-- The core after moves is decided by their essence. -/
theorem core_makeAll (e : Engine) (ms : List Move) :
    (e.makeAll ms).core = (e.makeAll (essence ms)).core := by
  induction ms generalizing e with
  | nil => rfl
  | cons m ms ih =>
    cases h : m.quiet with
    | false => simp only [essence_cons, h, makeAll_cons, ih]; rfl
    | true =>
      simp only [essence_cons, h, makeAll_cons]
      calc ((e.make m).makeAll ms).core = ((e.make m).makeAll (essence ms)).core := ih _
        _ = ((e.make m).core.makeAll (essence ms)).core := (core_makeAll_core _ _).symm
        _ = (e.core.makeAll (essence ms)).core := by rw [core_make_of_quiet h]
        _ = (e.makeAll (essence ms)).core := core_makeAll_core _ _

theorem core_makeAll_of_quiet (e : Engine) (h : essence ms = []) : (e.makeAll ms).core = e.core := by
  rw [core_makeAll, h, makeAll_nil]

theorem regs_makeAll (e : Engine) (ms : List Move) :
    (e.makeAll ms).regs = (e.makeAll (essence ms)).regs := by
  show (e.makeAll ms).core.regs = _
  rw [core_makeAll]
  rfl

theorem regs_makeAll_of_quiet (e : Engine) (h : essence ms = []) : (e.makeAll ms).regs = e.regs := by
  rw [regs_makeAll, h, makeAll_nil]

theorem current_makeAll (e : Engine) (ms : List Move) :
    (e.makeAll ms).current = (e.makeAll (essence ms)).current := by
  show (e.makeAll ms).core.current = _
  rw [core_makeAll]
  rfl

end Engine

end Assembly
