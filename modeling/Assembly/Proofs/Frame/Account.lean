import Assembly.Proofs.Engine.Confined
import Assembly.Proofs.Frame.Chronicle
import Assembly.Proofs.Frame.Footprint
import Assembly.Proofs.Register.Ledger

/-!
# Bodies in a run

What is in use while a function is open was handed out in it, and so the function has taken the
registers that its requests were answered with: `Ledger.held_mem_taken`.

The body of a function that only plain requests were made in is made of instructions.  They
overwrite registers that were handed out in the function, registers outside of the pool, and
registers that the requests touch.  `Sound.follow` says so of all functions of a run in which
every request is granted.
-/

namespace Assembly

namespace Episode

def plain (p : Episode) : Bool := p.requests.all Request.plain

/-- The registers that requests made in the function touch. -/
def touched (t : Target) (p : Episode) : List Text := p.requests.flatMap (Request.touches t)

/-- The body is made of instructions that overwrite handed-out registers and touched ones
only. -/
structure Accounted (t : Target) (p : Episode) : Prop where
  pool : ∀ r ∈ p.taken, r ∈ t.intPool
  conduct : ∃ is : List Instr, p.emitted = is.map .instr ∧
    Conduct t (· ∈ p.taken) (p.touched t) is

/-- What a function gains by moves inside of it. -/
structure Grows (p p' : Episode) (lines : List Line) (regs : List Text) : Prop where
  requests : p'.requests = p.requests
  emitted : p'.emitted = p.emitted ++ lines
  taken : p'.taken = p.taken ++ regs

theorem Grows.refl (p : Episode) : p.Grows p [] [] :=
  ⟨rfl, (List.append_nil _).symm, (List.append_nil _).symm⟩

theorem Grows.trans {p p' p'' : Episode} {lines lines' : List Line} {regs regs' : List Text}
    (h : p.Grows p' lines regs) (h' : p'.Grows p'' lines' regs') :
    p.Grows p'' (lines ++ lines') (regs ++ regs') := by
  refine ⟨h'.requests.trans h.requests, ?_, ?_⟩
  · rw [h'.emitted, h.emitted, List.append_assoc]
  · rw [h'.taken, h.taken, List.append_assoc]

/-- The footprint of a plain request keeps the body accounted for. -/
theorem Accounted.grow {p p' : Episode} {f : RegisterFile} {q : Request} {ms : List Move}
    (h : p.Accounted f.target) (huse : ∀ r ∈ f.inUse .int, r ∈ p.taken)
    (hq : Footprint f (q.touches f.target) ms)
    (hg : Grows { p with requests := p.requests ++ [q] } p' (ms.flatMap Move.lines)
      (f.freshAll ms)) :
    p'.Accounted f.target := by
  -- Registers that the request finds in use were taken by the function before, so both
  -- parts of the body may be judged by the registers taken in the end.
  obtain ⟨is, his, hcond⟩ := h.conduct
  obtain ⟨js, hjs, hcond'⟩ := hq.conduct
  have htaken : ∀ r, r ∈ p'.taken ↔ r ∈ p.taken ∨ r ∈ f.freshAll ms := by
    intro r
    rw [hg.taken, List.mem_append]
  refine ⟨fun r hr => ?_, is ++ js, ?_, ?_⟩
  · exact ((htaken r).mp hr).elim (h.pool r) RegisterFile.freshAll_mem_pool
  · rw [hg.emitted, his, hjs, List.map_append]
  · have htouched : p'.touched f.target = p.touched f.target ++ q.touches f.target := by
      rw [touched, hg.requests, List.flatMap_append, List.flatMap_singleton]
      rfl
    rw [htouched]
    refine (hcond.mono fun s hs => (htaken s).mpr (.inl hs)).append (hcond'.mono fun s hs => ?_)
    exact (htaken s).mpr (hs.imp_left (huse s))

end Episode

theorem Engine.regs_target_serve (e : Engine) (h : e.regs.target = e.target) (q : Request) :
    (e.serve q).regs.target = (e.serve q).target := by
  have hkind := congrArg Prod.fst (e.makeAll_regs_kind (e.movesOf q))
  rw [e.serve_target, ← h]
  exact hkind

namespace Chronicle

/-- The functions of a chronicle, without the routines. -/
def functions (h : Chronicle) : List Episode × Option Episode := (h.closed, h.opened)

variable {h h' : Chronicle} {e e' : Engine} {m : Move} {ms : List Move}

theorem functions_note_of_quiet (hm : m.quiet) : (h.note e m).functions = h.functions := by
  cases m <;> first | rfl | cases hm

theorem functions_note_congr (hh : h.functions = h'.functions) (he : e.core = e'.core)
    (m : Move) : (h.note e m).functions = (h'.note e' m).functions := by
  obtain ⟨hc, ho⟩ := Prod.mk.inj hh
  have hregs : e.core.regs = e'.core.regs := congrArg Engine.regs he
  have hfresh : ∀ c, freshInt? e c = freshInt? e' c := by
    intro c
    cases c with
    | int => exact congrArg (RegisterFile.firstFree? · .int) hregs
    | float => rfl
  cases m <;> simp [note, functions, mapOpened, hc, ho, hfresh]

theorem functions_noteAll_congr (hh : h.functions = h'.functions) (he : e.core = e'.core)
    (ms : List Move) : (h.noteAll e ms).functions = (h'.noteAll e' ms).functions := by
  induction ms generalizing h h' e e' with
  | nil => exact hh
  | cons m ms ih =>
    refine ih (functions_note_congr hh he m) ?_
    rw [← Engine.core_make_core, he, Engine.core_make_core]

/-- The functions of a chronicle are decided by the essence of the moves. -/
theorem functions_noteAll (h : Chronicle) (e : Engine) (ms : List Move) :
    (h.noteAll e ms).functions = (h.noteAll e (Move.essence ms)).functions := by
  induction ms generalizing h e with
  | nil => rfl
  | cons m ms ih =>
    rw [Move.essence_cons, noteAll, ih]
    split
    case isTrue hm =>
      exact functions_noteAll_congr (functions_note_of_quiet hm) (Engine.core_make_of_quiet hm) _
    case isFalse => rfl

/-- Nothing but the open function changes, and that gains lines and registers. -/
structure Gains (h h' : Chronicle) (lines : List Line) (regs : List Text) : Prop where
  closed : h'.closed = h.closed
  opened : ∀ p', h'.opened = some p' → ∃ p, h.opened = some p ∧ p.Grows p' lines regs

theorem Gains.refl (h : Chronicle) : h.Gains h [] [] := ⟨rfl, fun p hp => ⟨p, hp, .refl p⟩⟩

theorem Gains.mapOpened (h : Chronicle) {g : Episode → Episode} {lines : List Line}
    {regs : List Text} (hg : ∀ p : Episode, p.Grows (g p) lines regs) :
    h.Gains (h.mapOpened g) lines regs := by
  refine ⟨rfl, fun p' hp' => ?_⟩
  obtain ⟨p, hp, rfl⟩ := Option.map_eq_some_iff.mp hp'
  exact ⟨p, hp, hg p⟩

theorem Gains.note (h : Chronicle) (e : Engine) (hm : m.inner) :
    h.Gains (h.note e m) m.lines (e.regs.fresh m) := by
  cases m with
  | enter | leave => cases hm
  | instr i => exact .mapOpened h fun p => ⟨rfl, rfl, (List.append_nil _).symm⟩
  | raw t => exact .mapOpened h fun p => ⟨rfl, rfl, (List.append_nil _).symm⟩
  | addLocal name type =>
    exact .mapOpened h fun p => ⟨rfl, (List.append_nil _).symm, (List.append_nil _).symm⟩
  | take c =>
    refine .mapOpened h fun p => ⟨rfl, (List.append_nil _).symm, ?_⟩
    cases c <;> rfl
  | link b => exact ⟨rfl, fun p hp => ⟨p, hp, .refl p⟩⟩
  | _ => exact .refl h

theorem Gains.noteAll (h : Chronicle) (e : Engine) (hms : ∀ m ∈ ms, m.inner) :
    h.Gains (h.noteAll e ms) (ms.flatMap Move.lines) (e.regs.freshAll ms) := by
  induction ms generalizing h e with
  | nil => exact .refl h
  | cons m ms ih =>
    have hm : m.inner := hms m List.mem_cons_self
    have hfirst := Gains.note h e hm
    have hrest := ih (h.note e m) (e.make m) fun n hn => hms n (List.mem_cons_of_mem _ hn)
    refine ⟨hrest.closed.trans hfirst.closed, fun p' hp' => ?_⟩
    obtain ⟨p₁, hp₁, hg₁⟩ := hrest.opened p' hp'
    obtain ⟨p, hp, hg⟩ := hfirst.opened p₁ hp₁
    refine ⟨p, hp, ?_⟩
    rw [List.flatMap_cons, RegisterFile.freshAll, ← e.regs_make_of_inner hm]
    exact hg.trans hg₁

/-! ## Registers in use -/

/-- The open function has taken the integer registers in use. -/
def Owns (h : Chronicle) (e : Engine) : Prop :=
  ∀ p, h.opened = some p → ∀ r ∈ e.regs.inUse .int, r ∈ p.taken

namespace Owns

theorem note (o : h.Owns e) (d : h.Describes e) (m : Move) : (h.note e m).Owns (e.make m) := by
  intro p' hp' r hr
  by_cases hm : m.inner = true
  · obtain ⟨p, hp, hg⟩ := (Gains.note h e hm).opened p' hp'
    rw [e.regs_make_of_inner hm] at hr
    rw [hg.taken, List.mem_append]
    exact (RegisterFile.mem_inUse_after hr).imp_left (o p hp r)
  · cases m with
    | enter name params =>
      -- A function begins with no register in use, or there is one already.
      obtain ⟨-, hc⟩ | ⟨p, f, ho, hc, -⟩ := d.open_cases
      · rw [Engine.make, Engine.enter, hc] at hr
        cases hr
      · rw [Engine.make, Engine.enter, hc] at hr
        rw [Chronicle.note, ho] at hp'
        cases hp'
        exact o p ho r hr
    | leave => cases hp'
    | _ => exact absurd rfl hm

theorem noteAll (o : h.Owns e) (d : h.Describes e) (ms : List Move) :
    (h.noteAll e ms).Owns (e.makeAll ms) := by
  induction ms generalizing h e with
  | nil => exact o
  | cons m ms ih => exact ih (o.note d m) (d.make m)

theorem ask (o : h.Owns e) (d : h.Describes e) (q : Request) : (h.ask e q).Owns (e.serve q) := by
  refine noteAll (fun p hp => ?_) (d.addRequest q) (e.movesOf q)
  obtain ⟨p₀, hp₀, rfl⟩ := Option.map_eq_some_iff.mp hp
  exact o p₀ hp₀

theorem follow (o : h.Owns e) (d : h.Describes e) (qs : List Request) :
    (h.follow e qs).Owns (e.serveAll qs) := by
  induction qs generalizing h e with
  | nil => exact o
  | cons q qs ih => exact ih (o.ask d q) (d.ask q)

end Owns

/-! ## Functions along a run -/

theorem functions_ask_begin {q : Request} {name : Text} {params : List Param} {f : FunctionRef}
    (d : h.Describes e) (hms : (Emit.beginFunction name params).Grants e f ms)
    (hq : e.movesOf q = ms) : (h.ask e q).functions = (h.closed, some (.new name)) := by
  obtain ⟨hcur, -, hess⟩ := Emit.beginFunction_moves hms
  have hopen : h.opened = none := by
    obtain ⟨ho, -⟩ | ⟨_, _, -, hc, -⟩ := d.open_cases
    · exact ho
    · rw [hcur] at hc
      cases hc
  rw [ask, functions_noteAll, hq, hess, addRequest, mapOpened_of_none hopen]
  simp [noteAll, note, functions, hopen]

theorem functions_ask_end {q : Request} {f : FunctionRef} {u : Unit}
    (hms : (Emit.endFunction f).Grants e u ms) (hq : e.movesOf q = ms) :
    (h.ask e q).functions = (h.closed ++ (h.opened.map fun p =>
      { p with requests := p.requests ++ [q] }).toList, none) := by
  rw [ask, functions_noteAll, hq, Emit.endFunction_moves hms]
  rfl

/-! ## Accounts along a run -/

/-- Every body made by plain requests is accounted for. -/
structure Sound (h : Chronicle) (e : Engine) : Prop where
  target : e.regs.target = e.target
  closed : ∀ p ∈ h.closed, p.plain → p.Accounted e.target
  opened : ∀ p, h.opened = some p → p.plain → p.Accounted e.target

namespace Sound

variable {q : Request}

theorem new (t : Target) (strict : Bool) : empty.Sound (.new t strict) :=
  ⟨rfl, List.forall_mem_nil _, fun _ hp => nomatch hp⟩

theorem target_serve (s : h.Sound e) (q : Request) :
    (e.serve q).regs.target = (e.serve q).target :=
  e.regs_target_serve s.target q

theorem beginFunction {name : Text} {params : List Param} {f : FunctionRef} (s : h.Sound e)
    (d : h.Describes e) (hms : (Emit.beginFunction name params).Grants e f ms)
    (hq : e.movesOf q = ms) : (h.ask e q).Sound (e.serve q) := by
  obtain ⟨hclosed, hopened⟩ := Prod.mk.inj (functions_ask_begin d hms hq)
  refine ⟨s.target_serve q, ?_, ?_⟩
  · rw [hclosed, e.serve_target]
    exact s.closed
  · intro p hp hplain
    rw [hopened, Option.some.injEq] at hp
    subst hp
    exact ⟨List.forall_mem_nil _, [], rfl, .nil _ _⟩

theorem plain_append {p : Episode} (h : Episode.plain { p with requests := p.requests ++ [q] }) :
    p.plain ∧ q.plain := by
  simpa [Episode.plain] using h

theorem endFunction {f : FunctionRef} {u : Unit} (s : h.Sound e)
    (hms : (Emit.endFunction f).Grants e u ms) (hq : q = .endFunction f)
    (hq' : e.movesOf q = ms) : (h.ask e q).Sound (e.serve q) := by
  obtain ⟨hclosed, hopened⟩ := Prod.mk.inj (functions_ask_end hms hq')
  refine ⟨s.target_serve q, ?_, ?_⟩
  · rw [hclosed, e.serve_target]
    intro p hp hplain
    rcases List.mem_append.mp hp with hp | hp
    · exact s.closed p hp hplain
    · obtain ⟨p₀, hp₀, rfl⟩ := Option.map_eq_some_iff.mp (Option.mem_toList.mp hp)
      obtain ⟨hpool, is, his, hcond⟩ := s.opened p₀ hp₀ (plain_append hplain).1
      refine ⟨hpool, is, his, ?_⟩
      have htouched : Episode.touched e.target { p₀ with requests := p₀.requests ++ [q] } =
          p₀.touched e.target := by
        simp [Episode.touched, hq, Request.touches]
      rw [htouched]
      exact hcond
  · intro p hp
    rw [hopened] at hp
    cases hp

theorem inside {r : Reply} (s : h.Sound e) (o : h.Owns e) (hwithin : q.within)
    (hms : q.emit.Grants e r ms) (hq : e.movesOf q = ms) :
    (h.ask e q).Sound (e.serve q) := by
  -- What a request that is not plain emits is of no interest, but it still has to stay
  -- inside of the function for the other functions to be left alone.
  have hinner : ∀ m ∈ Move.essence ms, m.inner := fun m hm =>
    Request.inner_moves hwithin e m (hq ▸ List.mem_of_mem_filter hm)
  have hgains := Gains.noteAll (h.addRequest q) e hinner
  obtain ⟨hclosed, hopened⟩ := Prod.mk.inj (functions_noteAll (h.addRequest q) e ms)
  rw [ask, hq]
  refine ⟨s.target_serve q, ?_, ?_⟩
  · rw [hclosed, hgains.closed, e.serve_target]
    exact s.closed
  · intro p' hp' hplain
    rw [hopened] at hp'
    obtain ⟨p₁, hp₁, hg⟩ := hgains.opened p' hp'
    obtain ⟨p, hp, rfl⟩ := Option.map_eq_some_iff.mp hp₁
    have hplain₁ : Episode.plain { p with requests := p.requests ++ [q] } := by
      rw [Episode.plain, ← hg.requests]
      exact hplain
    obtain ⟨hp_plain, hq_plain⟩ := plain_append hplain₁
    have hacc := s.opened p hp hp_plain
    have hfoot := Request.footprint s.target hq_plain hwithin hms
    rw [← s.target] at hacc hfoot
    rw [e.serve_target, ← s.target]
    exact hacc.grow (o p hp) hfoot hg

theorem serve {r : Reply} (s : h.Sound e) (d : h.Describes e) (o : h.Owns e)
    (hr : e.reply q = .ok r) :
    (h.ask e q).Sound (e.serve q) := by
  have hgrant : q.emit.Grants e r (e.movesOf q) := Prod.ext hr rfl
  by_cases hq : q.within = true
  · exact s.inside o hq hgrant rfl
  · cases q with
    | beginFunction name params =>
      obtain ⟨f, hf, -⟩ := Emit.grants_map.mp hgrant
      exact s.beginFunction d hf rfl
    | endFunction f =>
      obtain ⟨u, hu, -⟩ := Emit.grants_map.mp hgrant
      exact s.endFunction hu rfl rfl
    | _ => exact absurd rfl hq

end Sound

end Chronicle

namespace Engine

def grantsAll (e : Engine) : List Request → Bool
  | [] => true
  | q :: qs => (e.reply q).isOk && (e.serve q).grantsAll qs

end Engine

theorem Chronicle.Sound.follow {h : Chronicle} {e : Engine} {qs : List Request} (s : h.Sound e)
    (d : h.Describes e) (o : h.Owns e) (hall : e.grantsAll qs) :
    (h.follow e qs).Sound (e.serveAll qs) := by
  induction qs generalizing h e with
  | nil => exact s
  | cons q qs ih =>
    obtain ⟨hq, hrest⟩ := (Bool.and_eq_true ..).mp hall
    cases hr : e.reply q with
    | error x =>
      rw [hr] at hq
      cases hq
    | ok r => exact ih (s.serve d o hr) (d.ask q) (o.ask d q) hrest

/-- While a function is open, the integer registers that outstanding handles name, which are all
from replies to granted requests, are among those that the function has taken. -/
theorem Ledger.held_mem_taken {t : Target} {qs : List Request}
    (h : empty.orderly (.new t true) qs) {v : Value}
    (hv : v ∈ (empty.follow (.new t true) qs).held) (hc : v.regClass = .int) {p : Episode}
    (hp : (Chronicle.of t true qs).opened = some p) : v.name ∈ p.taken := by
  have d : Chronicle.empty.Describes (.new t true) := ⟨rfl, rfl, .none, rfl⟩
  have o : Chronicle.empty.Owns (.new t true) := fun _ hp => by cases hp
  refine o.follow d qs p hp v.name ?_
  rw [((Matches.new t).follow h).held.inUse]
  exact List.mem_map_of_mem (List.mem_filter.mpr ⟨hv, by simpa using hc⟩)

end Assembly
