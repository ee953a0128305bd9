import Assembly.Proofs.Frame.Account

/-!
# Registers at the return

A function saves and restores the registers that were handed out in it.  Some requests
overwrite other registers of the pool as well, and no save covers those.  `restores_iff`
says of every function of a run exactly when each pool register that its body overwrites
holds its entry value again at the return.
-/

namespace Assembly

open Machine

theorem Target.physical_basePointer_ne (t : Target) :
    physical t.basePointer ≠ physical t.stackPointer := by
  cases t <;> decide +kernel

/-- The registers that a line overwrites. -/
def Line.written : Line → List Text
  | .instr i => i.written
  | _ => []

namespace Episode

/-! ## The frame on the machine -/

def entry (t : Target) (p : Episode) : List Instr :=
  [Instr.push t.basePointer, Instr.mk .mov [.reg t.basePointer, .reg t.stackPointer]] ++
    if 0 < p.localSize t then [Instr.mk .sub [.reg t.stackPointer, .num (p.localSize t)]] else []

def exit (t : Target) : List Instr :=
  [.mk .mov [.reg t.stackPointer, .reg t.basePointer], .pop t.basePointer]

/-- The cells of the frame: the room for the locals, and the base pointer of the caller. -/
def cells (t : Target) (p : Episode) : List Cell :=
  (if 0 < p.localSize t then [Cell.room (p.localSize t)] else []) ++
    [Cell.word (.entry (physical t.basePointer))]

def framed (t : Target) (p : Episode) : Machine :=
  { regs := fun r => if r = physical t.basePointer then .stack t.wordSize else .entry r
    stack := p.cells t }

variable {t : Target} {p : Episode}

theorem flatMap_written_instrs (is : List Instr) :
    (is.map Line.instr).flatMap Line.written = is.flatMap Instr.written := by
  rw [List.flatMap_map]
  rfl

theorem block_eq {is : List Instr} (h : p.emitted = is.map .instr) :
    p.block t = .label p.name :: ((p.entry t).map .instr ++
      ((p.saves.reverse.map Instr.push ++ is ++ p.saves.map Instr.pop).map .instr ++
        ((exit t).map .instr ++ [Line.instr ⟨.ret, []⟩]))) := by
  have hroom : p.reservation t = (if 0 < p.localSize t then
      [Instr.mk .sub [.reg t.stackPointer, .num (p.localSize t)]] else []).map .instr := by
    rw [reservation]
    split <;> rfl
  simp only [block, header, entry, exit, hroom, h, List.map_append, List.map_map, List.append_assoc,
    List.cons_append, List.nil_append, List.map_cons, List.map_nil]
  rfl

theorem run_entry : (p.entry t).foldlM (exec t) start = some (p.framed t) := by
  have hne : t.basePointer ≠ t.stackPointer := fun h => t.physical_basePointer_ne (congrArg _ h)
  have hmov : ∀ m, exec t m ⟨.mov, [.reg t.basePointer, .reg t.stackPointer]⟩ =
      some (m.set t.basePointer (.stack (m.depth t))) := by
    intro m
    rw [exec_mov, if_neg hne, if_pos rfl, write, if_neg t.physical_basePointer_ne]
  have hdepth : (start.push (.word (start.regs (physical t.basePointer)))).depth t = t.wordSize :=
    Nat.add_zero _
  rw [entry, List.foldlM_append, List.foldlM_cons, exec_push, Option.bind_eq_bind, Option.bind_some,
    List.foldlM_cons, hmov, hdepth]
  show (if 0 < p.localSize t then [Instr.mk .sub [.reg t.stackPointer, .num (p.localSize t)]]
    else []).foldlM (exec t) _ = _
  by_cases hlocal : 0 < p.localSize t
  · rw [if_pos hlocal, List.foldlM_cons, exec_sub, framed, cells, if_pos hlocal]
    rfl
  · rw [if_neg hlocal, framed, cells, if_neg hlocal]
    rfl

/-- Leaving the frame finds the base pointer of the caller below the locals. -/
theorem run_exit {m : Machine} (hstack : m.stack = p.cells t)
    (hbase : m.regs (physical t.basePointer) = .stack t.wordSize) :
    (exit t).foldlM (exec t) m =
      some ({ m with stack := [] }.set t.basePointer (.entry (physical t.basePointer))) := by
  have hunwind : m.unwind t t.basePointer =
      some { m with stack := [.word (.entry (physical t.basePointer))] } := by
    have hdepth : m.depth t = p.localSize t + t.wordSize := by
      rw [Machine.depth, hstack, cells]
      split <;> simp [Cell.size]
      omega
    have hdrop : dropCells t (p.localSize t) (p.cells t) =
        some [.word (.entry (physical t.basePointer))] := by
      rw [cells]
      split
      case isTrue hlocal => simp [dropCells, Cell.size, Nat.ne_of_gt hlocal]
      case isFalse hlocal => simp [dropCells, Nat.eq_zero_of_not_pos hlocal]
    rw [unwind, hbase]
    simp only [hdepth, Nat.le_add_left, if_true, Nat.add_sub_cancel]
    rw [drop, hstack, hdrop]
    rfl
  have hpop : exec t { m with stack := [.word (.entry (physical t.basePointer))] }
      (.pop t.basePointer) =
      some ({ m with stack := [] }.set t.basePointer (.entry (physical t.basePointer))) :=
    if_neg t.physical_basePointer_ne
  rw [exit, List.foldlM_cons, exec_mov, if_pos rfl, hunwind, Option.bind_eq_bind, Option.bind_some,
    List.foldlM_cons, hpop]
  rfl

/-! ## The run of a block -/

/-- The registers that are gone after the body, less those that are saved. -/
def missing (p : Episode) (gone : Text → Prop) (r : Text) : Prop :=
  gone r ∧ ∀ s ∈ p.saves, r ≠ physical s

theorem executes_saves {is : List Instr} {gone : Text → Prop} (hrun : Executes t is gone)
    (hpool : ∀ r ∈ p.taken, r ∈ t.intPool) :
    Executes t (p.saves.reverse.map Instr.push ++ is ++ p.saves.map Instr.pop) (p.missing gone) := by
  have hsp : ∀ r ∈ p.saves.reverse, physical r ≠ physical t.stackPointer := by
    intro r hr
    rw [List.mem_reverse, saves, mem_eraseDups] at hr
    exact (t.physical_intPool r (hpool r hr)).1
  have hbracket := hrun.bracket p.saves.reverse hsp
  rw [List.reverse_reverse] at hbracket
  exact hbracket.congr fun r => by simp [missing]

/-- A block whose body keeps the base pointer returns, and what is not missing has its entry
value. -/
theorem run_block {is : List Instr} {gone : Text → Prop} (his : p.emitted = is.map .instr)
    (hrun : Executes t is gone) (hpool : ∀ r ∈ p.taken, r ∈ t.intPool)
    (hbase : ¬ gone (physical t.basePointer)) :
    ∃ m, start.run t (p.block t) = some m ∧
      (∀ r, ¬ p.missing gone r → m.regs r = .entry r) ∧
      ∀ r, p.missing gone r → ∀ s, m.regs r ≠ .entry s := by
  -- The body finds the base pointer at the caller's one, and so does the exit if the body
  -- keeps it.
  obtain ⟨m, hm, hl⟩ := executes_saves hrun hpool (p.framed t)
  have hkept : m.regs (physical t.basePointer) = .stack t.wordSize :=
    (hl.kept _ fun hg => hbase hg.1).trans (if_pos rfl)
  refine ⟨{ m with stack := [] }.set t.basePointer (.entry (physical t.basePointer)), ?_, ?_, ?_⟩
  · rw [block_eq his, Machine.run, run_append run_entry, run_append hm,
      run_append (run_exit hl.stack hkept)]
    rfl
  · intro r hr
    rw [regs_set]
    split
    case isTrue hrb => rw [hrb]
    case isFalse hrb => exact (hl.kept r hr).trans (if_neg hrb)
  · intro r hr s
    have hrb : r ≠ physical t.basePointer := fun h => hbase (h ▸ hr.1)
    rw [regs_set, if_neg hrb]
    exact hl.lost r hr s

theorem run_block_of_base {is : List Instr} {gone : Text → Prop}
    (his : p.emitted = is.map .instr) (hrun : Executes t is gone)
    (hpool : ∀ r ∈ p.taken, r ∈ t.intPool) (hbase : gone (physical t.basePointer)) :
    start.run t (p.block t) = none := by
  obtain ⟨m, hm, hl⟩ := executes_saves hrun hpool (p.framed t)
  have hmissing : p.missing gone (physical t.basePointer) := by
    refine ⟨hbase, fun s hs => ?_⟩
    rw [saves, mem_eraseDups] at hs
    exact (t.physical_intPool s (hpool s hs)).2.symm
  have hunwind : m.unwind t t.basePointer = none := by
    rw [unwind, hl.base hmissing]
  rw [block_eq his, Machine.run, run_append run_entry, run_append hm]
  show (exec t m ⟨.mov, [.reg t.stackPointer, .reg t.basePointer]⟩).bind _ = none
  rw [exec_mov, if_pos rfl, hunwind]
  rfl

theorem run_pushes (t : Target) (regs : List Text) (m : Machine) :
    ∃ m', (regs.map Instr.push).foldlM (exec t) m = some m' := by
  induction regs generalizing m with
  | nil => exact ⟨m, rfl⟩
  | cons r regs ih => exact ih (m.push (.word (m.regs (physical r))))

theorem run_block_of_stuck {is : List Instr} (his : p.emitted = is.map .instr)
    (hstuck : Stuck t is) : start.run t (p.block t) = none := by
  obtain ⟨m, hm⟩ := run_pushes t p.saves.reverse (p.framed t)
  rw [block_eq his, Machine.run, run_append run_entry, List.map_append, List.map_append,
    List.append_assoc, List.append_assoc, run_append hm, hstuck.run]

/-! ## Restored registers -/

/-- The block returns, and every pool register that an instruction of the body overwrites
has its entry value then. -/
def Restores (t : Target) (p : Episode) : Prop :=
  ∃ m, start.run t (p.block t) = some m ∧
    ∀ r ∈ t.intPool, (∃ d ∈ p.emitted.flatMap Line.written, physical d = physical r) →
      m.regs (physical r) = .entry (physical r)

/-- The function saves the register, or it is none of the pool and carries no address of
the stack. -/
def Covers (t : Target) (p : Episode) (reg : Text) : Prop :=
  physical reg ≠ physical t.stackPointer ∧ physical reg ≠ physical t.basePointer ∧
    ∀ s ∈ t.intPool, physical s = physical reg → s ∈ p.saves

instance (t : Target) (p : Episode) (reg : Text) : Decidable (p.Covers t reg) :=
  inferInstanceAs (Decidable (_ ∧ _ ∧ _))

theorem Accounted.restores (h : p.Accounted t) (hcover : ∀ x ∈ p.touched t, p.Covers t x) :
    p.Restores t := by
  obtain ⟨is, his, hcond⟩ := h.conduct
  obtain ⟨gone, hrun, hbase, -⟩ := hcond.runs fun x hx => (hcover x hx).1
  have hkeeps : ¬ gone (physical t.basePointer) := by
    intro hb
    obtain ⟨x, hx, hxb⟩ := hbase hb
    exact (hcover x hx).2.1 hxb
  obtain ⟨m, hm, hkept, -⟩ := run_block his hrun h.pool hkeeps
  refine ⟨m, hm, fun r hr hwritten => hkept _ fun hmiss => ?_⟩
  obtain ⟨d, hd, hdr⟩ := hwritten
  rw [his, flatMap_written_instrs] at hd
  have hsaved : r ∈ p.saves := by
    rcases hcond.written d hd r hr hdr with howned | ⟨x, hx, hxr⟩
    · rw [saves, mem_eraseDups]
      exact howned
    · exact (hcover x hx).2.2 r hr hxr.symm
  exact hmiss.2 r hsaved rfl

theorem Accounted.covers (h : p.Accounted t) (hres : p.Restores t) :
    ∀ x ∈ p.touched t, p.Covers t x := by
  obtain ⟨is, his, hcond⟩ := h.conduct
  obtain ⟨m, hm, hrest⟩ := hres
  -- Code that touches the stack pointer or loses the base pointer does not return at all.
  have hsp : ∀ x ∈ p.touched t, physical x ≠ physical t.stackPointer := by
    intro x hx hxsp
    rw [run_block_of_stuck his (hcond.stuck ⟨x, hx, hxsp⟩)] at hm
    cases hm
  obtain ⟨gone, hrun, -, hlost⟩ := hcond.runs hsp
  have hbase : ¬ gone (physical t.basePointer) := by
    intro hb
    rw [run_block_of_base his hrun h.pool hb] at hm
    cases hm
  obtain ⟨m', hm', -, hmissing⟩ := run_block his hrun h.pool hbase
  rw [hm, Option.some.injEq] at hm'
  subst hm'
  intro x hx
  refine ⟨hsp x hx, ?_, fun s hs hsx => ?_⟩
  · intro hxb
    rcases hlost x hx with hgone | ⟨s, hs, -, hsx⟩
    · exact hbase (hxb ▸ hgone)
    · exact (t.physical_intPool s hs).2 (hsx.trans hxb)
  · rcases hlost x hx with hgone | ⟨s', hs', howned, hsx'⟩
    · -- The register is gone after the body, so only a save can bring it back.
      by_contra hunsaved
      have hmiss : p.missing gone (physical s) := by
        refine ⟨hsx ▸ hgone, fun s' hs' heq => hunsaved ?_⟩
        have htaken : s' ∈ p.taken := by rwa [saves, mem_eraseDups] at hs'
        rwa [t.physical_injOn s hs s' (h.pool s' htaken) heq]
      obtain ⟨d, hd, hdx⟩ := hcond.touches x hx
      refine hmissing _ hmiss _ (hrest s hs ⟨d, ?_, hdx.trans hsx.symm⟩)
      rwa [his, flatMap_written_instrs]
    · rw [← t.physical_injOn s' hs' s hs (hsx'.trans hsx.symm), saves, mem_eraseDups]
      exact howned

end Episode

/-- In a run where every request is granted, take a function in which no text of a caller
and no call of another function is emitted.  Every pool register that its body overwrites
holds its entry value at the return exactly if the function saves the registers that its
requests touch. -/
theorem Engine.restores_iff (t : Target) (strict : Bool) (qs : List Request)
    (hall : (Engine.new t strict).grantsAll qs) (p : Episode)
    (hp : p ∈ (Chronicle.of t strict qs).closed) (hplain : ∀ q ∈ p.requests, q.plain) :
    p.Restores t ↔ ∀ q ∈ p.requests, ∀ x ∈ q.touches t, p.Covers t x := by
  have s := (Chronicle.Sound.new t strict).follow ⟨rfl, rfl, .none, rfl⟩ (fun _ hp => by cases hp)
    hall
  have hacc := s.closed p hp (List.all_eq_true.mpr hplain)
  rw [Engine.serveAll_target] at hacc
  have htouched : (∀ x ∈ p.touched t, p.Covers t x) ↔
      ∀ q ∈ p.requests, ∀ x ∈ q.touches t, p.Covers t x := by
    simp only [Episode.touched, List.mem_flatMap]
    constructor
    · intro h q hq x hx
      exact h x ⟨q, hq, hx⟩
    · rintro h x ⟨q, hq, hx⟩
      exact h q hq x hx
  rw [← htouched]
  exact ⟨hacc.covers, hacc.restores⟩

/-- A function that takes registers of some types and then writes a text. -/
def writingRun (types : List Text) : List Request :=
  Request.beginFunction "f" [] :: types.map .alloc ++
    [Request.print (.ofText "hi"), Request.endFunction ⟨0, "f"⟩]

def writingEpisode (t : Target) (types : List Text) : Episode :=
  (Chronicle.of t true (writingRun types)).closed.headD (.new "f")

/-- Nothing saves the registers that writing a text overwrites, unless they were handed out
in the function. -/
theorem Engine.restores_iff_writingRun :
    (writingEpisode .bits64 [] ∈ (Chronicle.of .bits64 true (writingRun [])).closed ∧
        ¬ (writingEpisode .bits64 []).Restores .bits64) ∧
      (writingEpisode .bits16 ["int16", "int16", "int16"]).Restores .bits16 := by
  refine ⟨⟨by decide +kernel, ?_⟩, ?_⟩
  · rw [Engine.restores_iff .bits64 true (writingRun []) (by decide +kernel) _ (by decide +kernel)
      (by decide +kernel)]
    decide +kernel
  · rw [Engine.restores_iff .bits16 true (writingRun ["int16", "int16", "int16"])
      (by decide +kernel) _ (by decide +kernel) (by decide +kernel)]
    decide +kernel

end Assembly
