import Assembly.Proofs.Engine.Mode
import Assembly.Proofs.Symbol.Phase

/-!
# Engines that differ in their past

Two engines are alike, `Alike`, if the rest of a run is the same on both.  They count their
functions from different numbers, so frames and references are the same up to an offset for
each engine.  Routines may be there in one of them and not in the other, which makes no
difference because the symbols of a routine that is there are defined.

The same move takes engines that are alike to engines that are alike.  Beginning a function
takes all registers back, so there it is enough that the engines are kin, `Kin`, that is,
alike apart from the registers in use.
-/

namespace Assembly

/-! ## Offsets -/

/-- The frame that was begun `n` functions later. -/
def Frame.shift (n : Nat) (f : Frame) : Frame := { f with id := f.id + n }

/-- The same reply where functions are counted from `n`. -/
def Reply.shift (n : Nat) : Reply → Reply
  | function f => function (f.shift n)
  | r => r

theorem Frame.noteClobber_shift (n : Nat) (f : Frame) (r : Text) :
    (f.shift n).noteClobber r = (f.noteClobber r).shift n := by
  show (if f.saved.contains r = true then _ else _) = _
  rw [Frame.noteClobber]
  split <;> rfl

/-! ## Engines that are alike -/

namespace Engine

/-- The routines that are there are there with their symbols, and with the routine that they
call. -/
structure Furnished (e : Engine) : Prop where
  symbols : ∀ b name, e.hasBuiltin b = true → .define name ∈ Emit.joining b → e.defines name = true
  order : e.hasBuiltin .printFloat = true → e.hasBuiltin .printInt = true

theorem furnished_new (t : Target) (strict : Bool) : (new t strict).Furnished := by
  refine ⟨fun b name hb => ?_, fun hb => ?_⟩
  · cases b <;> cases hb
  · cases hb

namespace Furnished

variable {e : Engine}

theorem make (h : e.Furnished) {m : Move} (hm : ∀ b, m ≠ .link b) : (e.make m).Furnished := by
  have hflags : ∀ b, (e.make m).hasBuiltin b = true ↔ e.hasBuiltin b = true := by
    intro b
    rw [hasBuiltin_make]
    exact or_iff_left (hm b)
  refine ⟨fun b name hb hname => ?_, fun hb => ?_⟩
  · rw [defines_make]
    exact .inl (h.symbols b name ((hflags b).mp hb) hname)
  · exact (hflags _).mpr (h.order ((hflags _).mp hb))

theorem phase {q : Request} {ms : List Move} (hphase : Phase q e ms) (h : e.Furnished) :
    (e.makeAll ms).Furnished := by
  refine ⟨fun b name hb hname => ?_, fun hb => ?_⟩
  · rw [defines_makeAll]
    rcases (e.hasBuiltin_makeAll ms b).mp hb with hb | hb
    · exact .inl (h.symbols b name hb hname)
    · exact .inr ((hphase.eq_joining hb).1 ▸ hname)
  · rw [hasBuiltin_makeAll]
    rcases (e.hasBuiltin_makeAll ms _).mp hb with hb | hb
    · exact .inl (h.order hb)
    · exact .inl ((hphase.eq_joining hb).2 rfl)

theorem serveAll (h : e.Furnished) (he : e.Stocked) (qs : List Request) :
    (e.serveAll qs).Furnished := by
  induction qs generalizing e with
  | nil => exact h
  | cons q qs ih =>
    have hphased := q.phased e he
    exact ih (hphased.keeps phase h) (hphased.stocked he)

end Furnished

/-- The engines agree on what the rest of a run depends on, apart from the registers in use.
`o` and `o'` are where they started; functions are counted and code is compared from there. -/
structure Kin (o o' e e' : Engine) : Prop where
  target : e.target = e'.target
  strict : e.strict = e'.strict
  kind : e.regs.kind = e'.regs.kind
  literals : e.literals = e'.literals
  prints : e.printBuffers = e'.printBuffers
  symbols : ∀ name, e.defines name = e'.defines name
  current : ∃ f : Option Frame, e.current = f.map (Frame.shift o.nextId) ∧
    e'.current = f.map (Frame.shift o'.nextId)
  ended : ∃ k, e.ended.length = k + o.nextId ∧ e'.ended.length = k + o'.nextId
  funcs : ∃ ls, e.funcs = o.funcs ++ ls ∧ e'.funcs = o'.funcs ++ ls
  furnished : e.Furnished
  furnished' : e'.Furnished

structure Alike (o o' e e' : Engine) : Prop extends Kin o o' e e' where
  regs : e.regs = e'.regs

variable {o o' e e' : Engine}

theorem Kin.symbols_make (h : Kin o o' e e') (m : Move) (name : Text) :
    (e.make m).defines name = (e'.make m).defines name := by
  rw [Bool.eq_iff_iff, defines_make, defines_make, h.symbols]

theorem Kin.counters_make (h : Kin o o' e e') (m : Move) :
    (e.make m).literals = (e'.make m).literals ∧
      (e.make m).printBuffers = (e'.make m).printBuffers := by
  have hliterals : e.stock.literals = e'.stock.literals := h.literals
  have hprints : e.stock.printBuffers = e'.stock.printBuffers := h.prints
  show (e.make m).stock.literals = (e'.make m).stock.literals ∧
    (e.make m).stock.printBuffers = (e'.make m).stock.printBuffers
  rw [make_stock, make_stock]
  cases m with
  | link b => cases b <;> exact ⟨hliterals, hprints⟩
  | countLiteral => exact ⟨congrArg (· + 1) hliterals, hprints⟩
  | countPrint => exact ⟨hliterals, congrArg (· + 1) hprints⟩
  | _ => exact ⟨hliterals, hprints⟩

/-- Storage, symbols and routines aside, the engines are as they were. -/
theorem Kin.of_core (h : Kin o o' e e') {d d' : Engine} (hc : d.core = e.core)
    (hc' : d'.core = e'.core) (hliterals : d.literals = d'.literals)
    (hprints : d.printBuffers = d'.printBuffers)
    (hsymbols : ∀ name, d.defines name = d'.defines name) (hf : d.Furnished) (hf' : d'.Furnished) :
    Kin o o' d d' := by
  have htarget : d.target = e.target := (congrArg Engine.target hc :)
  have htarget' : d'.target = e'.target := (congrArg Engine.target hc' :)
  have hstrict : d.strict = e.strict := (congrArg Engine.strict hc :)
  have hstrict' : d'.strict = e'.strict := (congrArg Engine.strict hc' :)
  have hregs : d.regs = e.regs := (congrArg Engine.regs hc :)
  have hregs' : d'.regs = e'.regs := (congrArg Engine.regs hc' :)
  have hcurrent : d.current = e.current := (congrArg Engine.current hc :)
  have hcurrent' : d'.current = e'.current := (congrArg Engine.current hc' :)
  have hended : d.ended = e.ended := (congrArg Engine.ended hc :)
  have hended' : d'.ended = e'.ended := (congrArg Engine.ended hc' :)
  have hfuncs : d.funcs = e.funcs := (congrArg Engine.funcs hc :)
  have hfuncs' : d'.funcs = e'.funcs := (congrArg Engine.funcs hc' :)
  refine ⟨?_, ?_, ?_, hliterals, hprints, hsymbols, ?_, ?_, ?_, hf, hf'⟩
  · rw [htarget, htarget', h.target]
  · rw [hstrict, hstrict', h.strict]
  · rw [hregs, hregs', h.kind]
  · rw [hcurrent, hcurrent']
    exact h.current
  · rw [hended, hended']
    exact h.ended
  · rw [hfuncs, hfuncs']
    exact h.funcs

theorem Kin.make_of_quiet (h : Kin o o' e e') {m : Move} (hq : m.quiet) (hm : ∀ b, m ≠ .link b) :
    Kin o o' (e.make m) (e'.make m) :=
  h.of_core (core_make_of_quiet hq) (core_make_of_quiet hq) (h.counters_make m).1
    (h.counters_make m).2 (h.symbols_make m) (h.furnished.make hm) (h.furnished'.make hm)

/-- After the same move, engines are alike if they are in the registers and in the code. -/
theorem Kin.make_of (h : Kin o o' e e') {m : Move} (hm : ∀ b, m ≠ .link b)
    (hregs : (e.make m).regs = (e'.make m).regs)
    (hcurrent : ∃ f : Option Frame, (e.make m).current = f.map (Frame.shift o.nextId) ∧
      (e'.make m).current = f.map (Frame.shift o'.nextId))
    (hended : ∃ k, (e.make m).ended.length = k + o.nextId ∧
      (e'.make m).ended.length = k + o'.nextId)
    (hfuncs : ∃ ls, (e.make m).funcs = o.funcs ++ ls ∧ (e'.make m).funcs = o'.funcs ++ ls) :
    Alike o o' (e.make m) (e'.make m) where
  target := by rw [(e.make_fixed m).1, (e'.make_fixed m).1, h.target]
  strict := by rw [(e.make_mode m).1, (e'.make_mode m).1, h.strict]
  kind := by rw [hregs]
  literals := (h.counters_make m).1
  prints := (h.counters_make m).2
  symbols := h.symbols_make m
  current := hcurrent
  ended := hended
  funcs := hfuncs
  furnished := h.furnished.make hm
  furnished' := h.furnished'.make hm
  regs := hregs

theorem Kin.map_current (h : Kin o o' e e') {k : Frame → Frame}
    (hk : ∀ n f, k (f.shift n) = (k f).shift n) :
    ∃ f : Option Frame, e.current.map k = f.map (Frame.shift o.nextId) ∧
      e'.current.map k = f.map (Frame.shift o'.nextId) := by
  obtain ⟨f, hf, hf'⟩ := h.current
  refine ⟨f.map k, ?_, ?_⟩
  · rw [hf, Option.map_map, Option.map_map]
    exact congrArg (fun k => f.map k) (funext fun g => hk _ g)
  · rw [hf', Option.map_map, Option.map_map]
    exact congrArg (fun k => f.map k) (funext fun g => hk _ g)

theorem Alike.addLine (h : Alike o o' e e') {m : Move} {l : Line} (hm : ∀ b, m ≠ .link b)
    (hmake : ∀ e : Engine, e.make m = e.addLine l) : Alike o o' (e.make m) (e'.make m) := by
  have hsame : ∀ e : Engine, (e.addLine l).regs = e.regs ∧ (e.addLine l).ended = e.ended ∧
      (e.addLine l).funcs = e.funcs ∧ (e.addLine l).current = e.current.map (·.addLine l) := by
    intro e
    rw [Engine.addLine]
    cases e.current <;> simp
  obtain ⟨hregs, hended, hfuncs, hcurrent⟩ := hsame e
  obtain ⟨hregs', hended', hfuncs', hcurrent'⟩ := hsame e'
  refine h.make_of hm ?_ ?_ ?_ ?_
  · rw [hmake, hmake, hregs, hregs', h.regs]
  · rw [hmake, hmake, hcurrent, hcurrent']
    exact h.map_current fun _ _ => rfl
  · rw [hmake, hmake, hended, hended']
    exact h.ended
  · rw [hmake, hmake, hfuncs, hfuncs']
    exact h.funcs

theorem Alike.take (h : Alike o o' e e') (c : RegClass) :
    Alike o o' (e.make (.take c)) (e'.make (.take c)) := by
  cases ha : e.regs.alloc? c with
  | none =>
    have hsame : e.make (.take c) = e := by rw [make_take, Engine.take, ha]
    have hsame' : e'.make (.take c) = e' := by rw [make_take, Engine.take, ← h.regs, ha]
    rwa [hsame, hsame']
  | some ag =>
    by_cases hsave : ag.1.fresh = true ∧ c = .int
    · have hmake : ∀ d : Engine, d.regs = e.regs → d.make (.take c) =
          { d with regs := ag.2, current := d.current.map (·.noteClobber ag.1.reg) } := by
        intro d hd
        rw [make_take, Engine.take, hd, ha]
        exact if_pos hsave
      refine h.make_of (fun b hb => by cases hb) ?_ ?_ ?_ ?_
      all_goals rw [hmake e rfl, hmake e' h.regs.symm]
      · exact h.map_current fun n f => f.noteClobber_shift n _
      · exact h.ended
      · exact h.funcs
    · have hmake : ∀ d : Engine, d.regs = e.regs → d.make (.take c) = { d with regs := ag.2 } := by
        intro d hd
        rw [make_take, Engine.take, hd, ha]
        exact if_neg hsave
      refine h.make_of (fun b hb => by cases hb) ?_ ?_ ?_ ?_
      all_goals rw [hmake e rfl, hmake e' h.regs.symm]
      · exact h.current
      · exact h.ended
      · exact h.funcs

theorem Kin.nextId (h : Kin o o' e e') :
    ∃ k, e.nextId = k + o.nextId ∧ e'.nextId = k + o'.nextId := by
  obtain ⟨k, hk, hk'⟩ := h.ended
  obtain ⟨f, hf, hf'⟩ := h.current
  have hlength : ∀ n, (f.map (Frame.shift n)).toList.length = f.toList.length := by
    intro n
    cases f <;> rfl
  refine ⟨k + f.toList.length, ?_, ?_⟩
  · rw [Engine.nextId, hk, hf, hlength]
    omega
  · rw [Engine.nextId, hk', hf', hlength]
    omega

theorem Kin.current_eq_none (h : Kin o o' e e') (hnone : e.current = none) : e'.current = none := by
  obtain ⟨f, hf, hf'⟩ := h.current
  obtain rfl : f = none := Option.map_eq_none_iff.mp (hf ▸ hnone)
  exact hf'

/-- Where no function is open, beginning one makes engines alike that have different
registers in use. -/
theorem Kin.enter (h : Kin o o' e e') (hnone : e.current = none) (name : Text)
    (params : List Param) :
    Alike o o' (e.make (.enter name params)) (e'.make (.enter name params)) := by
  have hnone' := h.current_eq_none hnone
  obtain ⟨k, hid, hid'⟩ := h.nextId
  have hregs : e.regs.reset = e'.regs.reset := by
    have htarget : e.regs.target = e'.regs.target := congrArg Prod.fst h.kind
    have hstrict : e.regs.strict = e'.regs.strict := congrArg Prod.snd h.kind
    rw [RegisterFile.reset, RegisterFile.reset, htarget, hstrict]
  have hmake : e.make (.enter name params) = { e with
      funcs := e.funcs ++ Routine.enter e.target name
      current := some (.new e.nextId name params), regs := e.regs.reset } := by
    rw [make, Engine.enter, hnone]
  have hmake' : e'.make (.enter name params) = { e' with
      funcs := e'.funcs ++ Routine.enter e'.target name
      current := some (.new e'.nextId name params), regs := e'.regs.reset } := by
    rw [make, Engine.enter, hnone']
  refine h.make_of (fun b hb => by cases hb) ?_ ?_ ?_ ?_
  all_goals rw [hmake, hmake']
  · exact hregs
  · refine ⟨some (.new k name params), ?_, ?_⟩
    · show some (Frame.new e.nextId name params) = _
      rw [hid]
      rfl
    · show some (Frame.new e'.nextId name params) = _
      rw [hid']
      rfl
  · exact h.ended
  · obtain ⟨ls, hls, hls'⟩ := h.funcs
    refine ⟨ls ++ Routine.enter e.target name, ?_, ?_⟩
    · rw [hls, List.append_assoc]
    · rw [hls', List.append_assoc, h.target]

theorem Alike.enter (h : Alike o o' e e') (name : Text) (params : List Param) :
    Alike o o' (e.make (.enter name params)) (e'.make (.enter name params)) := by
  cases hc : e.current with
  | none => exact h.toKin.enter hc name params
  | some g =>
    obtain ⟨f, hf, hf'⟩ := h.current
    have hsame : e.make (.enter name params) = e := by rw [make, Engine.enter, hc]
    have hsame' : e'.make (.enter name params) = e' := by
      cases f with
      | none => rw [hf] at hc; cases hc
      | some f => rw [make, Engine.enter, hf']; rfl
    rwa [hsame, hsame']

theorem Alike.leave (h : Alike o o' e e') : Alike o o' (e.make .leave) (e'.make .leave) := by
  obtain ⟨f, hf, hf'⟩ := h.current
  cases f with
  | none =>
    have hsame : e.make .leave = e := by rw [make, Engine.leave, hf]; rfl
    have hsame' : e'.make .leave = e' := by rw [make, Engine.leave, hf']; rfl
    rwa [hsame, hsame']
  | some f =>
    have hmake : e.make .leave = { e with
        funcs := e.funcs ++ f.code e.target, current := none
        ended := e.ended ++ [f.shift o.nextId] } := by
      rw [make, Engine.leave, hf]
      rfl
    have hmake' : e'.make .leave = { e' with
        funcs := e'.funcs ++ f.code e'.target, current := none
        ended := e'.ended ++ [f.shift o'.nextId] } := by
      rw [make, Engine.leave, hf']
      rfl
    refine h.make_of (fun b hb => by cases hb) ?_ ?_ ?_ ?_
    all_goals rw [hmake, hmake']
    · exact h.regs
    · exact ⟨none, rfl, rfl⟩
    · obtain ⟨k, hk, hk'⟩ := h.ended
      refine ⟨k + 1, ?_, ?_⟩
      · rw [List.length_append, hk, List.length_singleton]
        omega
      · rw [List.length_append, hk', List.length_singleton]
        omega
    · obtain ⟨ls, hls, hls'⟩ := h.funcs
      refine ⟨ls ++ f.code e.target, ?_, ?_⟩
      · rw [hls, List.append_assoc]
      · rw [hls', List.append_assoc, h.target]

theorem Alike.make (h : Alike o o' e e') {m : Move} (hm : ∀ b, m ≠ .link b) :
    Alike o o' (e.make m) (e'.make m) := by
  have hquiet : m.quiet → Alike o o' (e.make m) (e'.make m) := fun hq =>
    ⟨h.make_of_quiet hq hm, by
      have hregs : (e.make m).regs = e.regs := (congrArg Engine.regs (core_make_of_quiet hq) :)
      have hregs' : (e'.make m).regs = e'.regs := (congrArg Engine.regs (core_make_of_quiet hq) :)
      rw [hregs, hregs', h.regs]⟩
  cases m with
  | instr i => exact h.addLine hm fun _ => rfl
  | raw t => exact h.addLine hm fun _ => rfl
  | take c => exact h.take c
  | give c r => exact h.make_of hm (congrArg (·.free c r) h.regs) h.current h.ended h.funcs
  | resetRegs => exact h.make_of hm (congrArg (·.reset) h.regs) h.current h.ended h.funcs
  | enter name params => exact h.enter name params
  | addLocal name type =>
    refine h.make_of hm h.regs ?_ h.ended h.funcs
    show ∃ f : Option Frame, e.current.map (·.addLocal e.target name type) = _ ∧
      e'.current.map (·.addLocal e'.target name type) = _
    rw [← h.target]
    exact h.map_current fun _ _ => rfl
  | cache name v => exact h.make_of hm h.regs (h.map_current fun _ _ => rfl) h.ended h.funcs
  | leave => exact h.leave
  | reserve | store | define | countLiteral | countPrint | link | log => exact hquiet rfl

theorem Alike.makeAll (h : Alike o o' e e') {ms : List Move} (hms : ∀ b, .link b ∉ ms) :
    Alike o o' (e.makeAll ms) (e'.makeAll ms) := by
  induction ms generalizing e e' with
  | nil => exact h
  | cons m ms ih =>
    have hm : ∀ b, m ≠ .link b := fun b hb => hms b (hb ▸ List.mem_cons_self)
    exact ih (h.make hm) fun b hb => hms b (List.mem_cons_of_mem m hb)

end Engine

end Assembly
