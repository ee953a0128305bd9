import Assembly.Proofs.Script.Command
import Assembly.Script.Read

/-!
# Exclusive registers in scripts

Each allocation in a script is an event, and events are numbered in turn.  `Origins` follows
a run and knows for each name which event produced the handle that it is bound to: copies of
a handle have the event of the original.  It also knows which events hold their register, and
which held theirs when an event happened.  An event loses its register when a function begins,
because all registers are taken back then, and when the register is given back through any name.

`exclusive` says that the handles of two events name different registers if the earlier one held
its register when the later one happened, whether or not they hold them still.  If it did not,
they share a register exactly if that was the first one that was free.
-/

namespace Assembly.Script

theorem Emitter.lookup_bind_self (em : Emitter) (name : Text) (v : Value) :
    (em.bind name v).lookup name = some v := by
  rw [bind, lookup]
  cases em.scope with
  | none => simp
  | some s => simp

/-- An allocation: its handle, and the events that held a register before it, with theirs. -/
structure Event where
  handle : Value
  before : List (Nat × Value)

/-- The first register of a class that was free when the event happened. -/
def Event.spare (ev : Event) (t : Target) (c : RegClass) : Option Text :=
  let taken := (RegisterFile.ofClass c (ev.before.map (·.2))).map (·.name)
  ((RegisterFile.new t true).pool c).find? fun r => !taken.contains r

/-- The events so far, those that hold a register with their handles, and the events of names
outside of functions, of names in the function, and of fetched parameters. -/
structure Origins where
  events : List Event
  held : List (Nat × Value)
  globals : Text → Option Nat
  names : Text → Option Nat
  params : Text → Option Nat

namespace Origins

def start : Origins := ⟨[], [], fun _ => none, fun _ => none, fun _ => none⟩

/-- The event that produced the handle of a name. -/
def eventOf (o : Origins) (em : Emitter) (name : Text) : Option Nat :=
  match em.scope.bind (·.names.get? name) with
  | some _ => o.names name
  | none => o.globals name

/-- Event `i` held its register when event `j` happened. -/
def HeldWhen (o : Origins) (i j : Nat) : Prop := ∃ ev ∈ o.events[j]?, i ∈ ev.before.map (·.1)

instance (o : Origins) (i j : Nat) : Decidable (o.HeldWhen i j) :=
  inferInstanceAs (Decidable (∃ ev ∈ o.events[j]?, i ∈ ev.before.map (·.1)))

/-- The first register of a class that was free when event `j` happened. -/
def spareAt (o : Origins) (t : Target) (j : Nat) (c : RegClass) : Option Text :=
  o.events[j]?.bind fun ev => ev.spare t c

def bind (o : Origins) (em : Emitter) (name : Text) (k : Option Nat) : Origins :=
  match em.scope with
  | some _ => { o with names := fun x => if x = name then k else o.names x }
  | none => { o with globals := fun x => if x = name then k else o.globals x }

def allocate (o : Origins) (v : Value) : Origins :=
  { o with events := o.events ++ [⟨v, o.held⟩], held := o.held ++ [(o.events.length, v)] }

/-- The event of the handle that a term denotes. -/
def ofTerm (o : Origins) (em : Emitter) (x : Term) : Option Nat :=
  match x.form with
  | .name n => if (em.lookup n).any (·.isRegister) then o.eventOf em n else none
  | _ => none

/-- Binds a name to the value of an expression.  Names, loads of registers and parameters
that were fetched before copy a handle; all other expressions but literals are events. -/
def bindExpr (o : Origins) (em : Emitter) (name : Text) (v : Value) : ExprForm → Origins
  | .term value => o.bind em name (o.ofTerm em value)
  | .load value _ =>
    match o.ofTerm em value with
    | some k => o.bind em name (some k)
    | none => (o.allocate v).bind em name (some o.events.length)
  | .param p =>
    match o.params p with
    | some k => o.bind em name (some k)
    | none =>
      { o.allocate v with
        params := fun x => if x = p then some o.events.length else o.params x }.bind em name
        (some o.events.length)
  | .alloc _ | .call _ | .cast _ _ => (o.allocate v).bind em name (some o.events.length)

def release (o : Origins) (v : Value) : Origins :=
  let others := o.held.filter fun p => !(p.2.regClass = v.regClass ∧ p.2.name = v.name)
  { o with held := if v.temp then others else o.held }

/-- Writes down a statement that takes a run from `em` to `em'`. -/
def noteStmt (o : Origins) (em em' : Emitter) : StmtForm → Origins
  | .const name _ _ | .globalVar name _ | .localVar name _ => o.bind em name none
  | .bind name value => o.bindExpr em name ((em'.lookup name).getD {}) value.form
  | .free name => (em.lookup name).elim o o.release
  | _ => o

def note (o : Origins) (em em' : Emitter) : Command → Origins
  | .enter _ => { o with held := [], names := fun _ => none, params := fun _ => none }
  | .stmt s => o.noteStmt em em' s.form
  | .leave _ => o

def follow (o : Origins) (em : Emitter) : List Command → Origins
  | [] => o
  | c :: cs => (o.note em (c.emit.outcome em).2 c).follow (c.emit.outcome em).2 cs

/-! ## Agreement of a run with its events -/

/-- The handle is that of the event. -/
def Produced (o : Origins) (k : Nat) (v : Value) : Prop := o.events[k]?.map (·.handle) = some v

/-- Every name that is bound to a register has an event that produced its handle. -/
def Explains (o : Origins) (events : Text → Option Nat) (b : Bindings) : Prop :=
  ∀ x v, b.get? x = some v → v.isRegister → ∃ k, events x = some k ∧ o.Produced k v

/-- The registers in use are held by the events, and the events explain all names and
parameters.  Each event took the first register that no other held. -/
structure Tracks (t : Target) (o : Origins) (em : Emitter) : Prop where
  kind : em.engine.regs.kind = (t, true)
  held : em.engine.regs.HeldBy (o.held.map (·.2))
  handles : ∀ p ∈ o.held, o.Produced p.1 p.2
  history : ∀ ev ∈ o.events, (∀ p ∈ ev.before, o.Produced p.1 p.2) ∧
    ev.spare t ev.handle.regClass = some ev.handle.name
  globals : o.Explains o.globals em.globals
  names : ∀ s, em.scope = some s → o.Explains o.names s.names
  params : ∀ id cached, em.engine.cached = some (id, cached) →
    o.Explains o.params cached ∧ ∀ x, cached.get? x = none ↔ o.params x = none

variable {t : Target} {o o' : Origins} {b : Bindings} {events : Text → Option Nat} {v : Value}
  {name : Text}

theorem Explains.mono (h : o.Explains events b)
    (hprod : ∀ k v, o.Produced k v → o'.Produced k v) : o'.Explains events b := by
  intro x v hx hv
  obtain ⟨k, hk, hp⟩ := h x v hx hv
  exact ⟨k, hk, hprod k v hp⟩

theorem Explains.insert {k : Option Nat} (h : o.Explains events b)
    (hv : v.isRegister → ∃ j, k = some j ∧ o.Produced j v) :
    o.Explains (fun x => if x = name then k else events x) (b.insert name v) := by
  intro x w hx hw
  by_cases hxn : x = name
  · rw [hxn, Bindings.get?_insert_self] at hx
    cases hx
    obtain ⟨j, hj, hp⟩ := hv hw
    exact ⟨j, by simp [hxn, hj], hp⟩
  · rw [Bindings.get?_insert_of_ne b v hxn] at hx
    obtain ⟨j, hj, hp⟩ := h x w hx hw
    exact ⟨j, by simp [hxn, hj], hp⟩

theorem Explains.erase (h : o.Explains events b) (name : Text) : o.Explains events (b.erase name) := by
  intro x w hx hw
  by_cases hxn : x = name
  · rw [hxn, Bindings.get?_erase_self] at hx
    cases hx
  · rw [Bindings.get?_erase_of_ne b hxn] at hx
    exact h x w hx hw

/-- Events that happened keep their handles when another one happens. -/
theorem produced_allocate_of_produced {w : Value} (k : Nat) (v : Value) (h : o.Produced k v) :
    (o.allocate w).Produced k v := by
  obtain ⟨ev, hev, -⟩ := Option.map_eq_some_iff.mp h
  obtain ⟨hk, -⟩ := List.getElem?_eq_some_iff.mp hev
  rw [Produced, allocate, List.getElem?_append_left hk]
  exact h

theorem produced_allocate (o : Origins) (v : Value) :
    (o.allocate v).Produced o.events.length v := by
  simp [Produced, allocate]

namespace Tracks

variable {em : Emitter} {ms : List Move} {k : Option Nat}

theorem new (t : Target) : start.Tracks t (.new (.new t true)) := by
  refine ⟨rfl, .reset (.new t true), List.forall_mem_nil _, List.forall_mem_nil _, ?_, ?_, ?_⟩
  · intro x v hv
    cases hv
  · intro s hs
    cases hs
  · intro id cached hc
    cases hc

theorem strict (h : o.Tracks t em) : em.engine.regs.strict := congrArg Prod.snd h.kind

theorem lookup (h : o.Tracks t em) {x : Text} (hx : em.lookup x = some v) (hv : v.isRegister) :
    ∃ k, o.eventOf em x = some k ∧ o.Produced k v := by
  rw [Emitter.lookup] at hx
  rw [eventOf]
  generalize hinner : em.scope.bind (·.names.get? x) = inner at hx ⊢
  cases inner with
  | some w =>
    cases hx
    obtain ⟨s, hs, hxs⟩ := Option.bind_eq_some_iff.mp hinner
    exact h.names s hs x v hxs hv
  | none => exact h.globals x v hx hv

theorem keeps (h : o.Tracks t em) (hk : em.engine.Keeps ms) :
    o.Tracks t { em with engine := em.engine.makeAll ms } := by
  refine ⟨by simpa using h.kind, ?_, h.handles, h.history, h.globals,
    h.names, ?_⟩
  · rw [hk.regs]
    exact h.held
  · rw [hk.cached]
    exact h.params

theorem bind (h : o.Tracks t em) (hv : v.isRegister → ∃ j, k = some j ∧ o.Produced j v) :
    (o.bind em name k).Tracks t (em.bind name v) := by
  cases hs : em.scope with
  | none =>
    rw [Origins.bind, Emitter.bind, hs]
    refine ⟨h.kind, h.held, h.handles, h.history, h.globals.insert hv, fun s hs' => ?_,
      h.params⟩
    cases hs'
  | some s =>
    rw [Origins.bind, Emitter.bind, hs]
    refine ⟨h.kind, h.held, h.handles, h.history, h.globals, ?_, h.params⟩
    rintro _ ⟨⟩
    exact (h.names s hs).insert hv

/-- What is free for the engine is what no event holds. -/
theorem spare_eq (h : o.Tracks t em) {c : RegClass} {r : Text}
    (hfree : em.engine.regs.firstFree? c = some r) : Event.spare ⟨v, o.held⟩ t c = some r := by
  have hpool : em.engine.regs.pool c = (RegisterFile.new t true).pool c := by
    have htarget : em.engine.regs.target = t := congrArg Prod.fst h.kind
    rw [← htarget]
    cases c <;> rfl
  simp only [RegisterFile.firstFree?, RegisterFile.uses, h.held.inUse, hpool] at hfree
  exact hfree

theorem acquires (h : o.Tracks t em) (ha : em.engine.Acquires ms v) :
    (o.allocate v).Tracks t { em with engine := em.engine.makeAll ms } := by
  refine ⟨by simpa using h.kind, ?_, ?_, ?_, ?_, ?_, ?_⟩
  · rw [allocate, List.map_append, ha.regs]
    exact h.held.acquire ha.isRegister ha.free
  · intro p hp
    rcases List.mem_append.mp hp with hp | hp
    · exact produced_allocate_of_produced _ _ (h.handles p hp)
    · rw [List.mem_singleton.mp hp]
      exact o.produced_allocate v
  · intro ev hev
    rcases List.mem_append.mp hev with hev | hev
    · obtain ⟨hbefore, hspare⟩ := h.history ev hev
      exact ⟨fun p hp => produced_allocate_of_produced _ _ (hbefore p hp), hspare⟩
    · rw [List.mem_singleton.mp hev]
      exact ⟨fun p hp => produced_allocate_of_produced _ _ (h.handles p hp), h.spare_eq ha.free⟩
  · exact h.globals.mono produced_allocate_of_produced
  · exact fun s hs => (h.names s hs).mono produced_allocate_of_produced
  · rw [ha.cached]
    intro id cached hc
    obtain ⟨hsome, hnone⟩ := h.params id cached hc
    exact ⟨hsome.mono produced_allocate_of_produced, hnone⟩

theorem unbind (h : o.Tracks t em) (name : Text) : o.Tracks t (em.unbind name) := by
  rw [Emitter.unbind]
  cases hs : em.scope with
  | none =>
    refine ⟨h.kind, h.held, h.handles, h.history, h.globals.erase name, ?_, h.params⟩
    intro s hs'
    cases hs'
  | some s =>
    dsimp only
    split
    · refine ⟨h.kind, h.held, h.handles, h.history, h.globals, ?_, h.params⟩
      rintro _ ⟨⟩
      exact (h.names s hs).erase name
    · exact ⟨h.kind, h.held, h.handles, h.history, h.globals.erase name,
        fun s' hs' => h.names s' (hs ▸ hs'), h.params⟩

theorem fetch (h : o.Tracks t em) {id : Nat} {cached : Bindings} {ms₁ : List Move} {p : Text}
    (hc : em.engine.cached = some (id, cached)) (ha : em.engine.Acquires ms₁ v)
    (hregs : (em.engine.makeAll ms).regs = (em.engine.makeAll ms₁).regs)
    (hcached : (em.engine.makeAll ms).cached = some (id, cached.insert p v)) :
    Tracks t
      { o.allocate v with
        params := fun x => if x = p then some o.events.length else o.params x }
      { em with engine := em.engine.makeAll ms } := by
  have hacq := h.acquires ha
  refine ⟨by simpa using h.kind, hregs ▸ hacq.held, hacq.handles,
    hacq.history, hacq.globals, hacq.names, ?_⟩
  rw [hcached]
  rintro _ _ ⟨⟩
  obtain ⟨hsome, hnone⟩ := h.params id cached hc
  refine ⟨(hsome.mono produced_allocate_of_produced).insert fun _ =>
    ⟨o.events.length, rfl, o.produced_allocate v⟩, fun x => ?_⟩
  by_cases hx : x = p
  · rw [hx, Bindings.get?_insert_self]
    simp
  · rw [Bindings.get?_insert_of_ne cached v hx, hnone x]
    simp [hx]

theorem release (h : o.Tracks t em) (hv : v.isRegister) {u : Unit}
    (hr : (Emit.release v).Grants em.engine u ms) :
    (o.release v).Tracks t { em with engine := em.engine.makeAll ms } := by
  obtain ⟨hregs, hcached⟩ := Emit.release_registers hv hr
  refine ⟨by simpa using h.kind, ?_, ?_, h.history, h.globals, h.names, ?_⟩
  · rw [hregs, Origins.release]
    dsimp only
    split
    · have hwithout := h.held.free v.regClass v.name
      rw [RegisterFile.HeldBy.without, List.filter_map] at hwithout
      exact hwithout
    · exact h.held
  · intro p hp
    rw [Origins.release] at hp
    dsimp only at hp
    split at hp
    · exact h.handles p (List.mem_filter.mp hp).1
    · exact h.handles p hp
  · rw [hcached]
    exact h.params

theorem enter (h : o.Tracks t em) {f : FunctionRef} {params : List Param}
    (hb : (Emit.beginFunction name params).Grants em.engine f ms) (ref : FunctionRef) :
    Tracks t { o with held := [], names := fun _ => none, params := fun _ => none }
      { em with engine := em.engine.makeAll ms, scope := some ⟨ref, []⟩ } := by
  obtain ⟨hregs, hcached⟩ := Emit.beginFunction_registers hb
  refine ⟨by simpa using h.kind, ?_, List.forall_mem_nil _, h.history,
    h.globals, ?_, ?_⟩
  · rw [hregs]
    exact .reset em.engine.regs
  · rintro _ ⟨⟩
    intro x v hx
    cases hx
  · rw [hcached]
    rintro id cached ⟨⟩
    exact ⟨fun x v hx => (nomatch hx), fun x => ⟨fun _ => rfl, fun _ => rfl⟩⟩

theorem leave (h : o.Tracks t em) {f : FunctionRef} {u : Unit}
    (he : (Emit.endFunction f).Grants em.engine u ms) :
    o.Tracks t { em with engine := em.engine.makeAll ms, scope := none } := by
  obtain ⟨hregs, hcached⟩ := Emit.endFunction_registers he
  refine ⟨by simpa using h.kind, ?_, h.handles, h.history, h.globals,
    fun s hs => (nomatch hs), ?_⟩
  · rw [hregs]
    exact h.held
  · rw [hcached]
    intro id cached hc
    cases hc

/-! ## Expressions and commands -/

theorem ofTerm (h : o.Tracks t em) {x : Term} (hx : (Emission.term x).Yields em v em) :
    (v.isRegister → ∃ k, o.ofTerm em x = some k ∧ o.Produced k v) ∧
      (v.isRegister = false → o.ofTerm em x = none) := by
  obtain ⟨pos, form⟩ := x
  have hterm := (Emission.term_yields hx).2
  rw [Origins.ofTerm]
  cases form with
  | name n =>
    dsimp only at hterm ⊢
    rw [hterm]
    refine ⟨fun hv => ?_, fun hv => by simp [hv]⟩
    obtain ⟨k, hk, hp⟩ := h.lookup hterm hv
    exact ⟨k, by simpa [hv] using hk, hp⟩
  | string t => exact ⟨fun hv => (nomatch hv.symm.trans hterm), fun _ => rfl⟩
  | number t => exact ⟨fun hv => (nomatch hv.symm.trans hterm), fun _ => rfl⟩

theorem bindExpr (h : o.Tracks t em) {x : Expr} {em₁ : Emitter}
    (hx : (Emission.expr x).Yields em v em₁) :
    (o.bindExpr em name v x.form).Tracks t (em₁.bind name v) := by
  obtain ⟨ms, rfl, hform⟩ := Emission.expr_yields hx
  -- An event is the same in all cases: a register is acquired, and the name gets its handle.
  have hevent : em.engine.Acquires ms v →
      ((o.allocate v).bind em name (some o.events.length)).Tracks t
        (Emitter.bind { em with engine := em.engine.makeAll ms } name v) :=
    fun ha => (h.acquires ha).bind fun _ => ⟨o.events.length, rfl, o.produced_allocate v⟩
  have hcopy : ∀ k, (v.isRegister → ∃ j, k = some j ∧ o.Produced j v) →
      (o.bind em name k).Tracks t (em.bind name v) := fun k hv => h.bind hv
  obtain ⟨pos, form⟩ := x
  rw [Origins.bindExpr.eq_def]
  cases form with
  | param p =>
    dsimp only
    obtain ⟨s, -, hparam⟩ := hform
    obtain ⟨cached, hc, ⟨hhit, rfl⟩ | ⟨hmiss, -, ms₁, ha, hregs, hcached⟩⟩ :=
      Emit.param_acquires h.strict hparam
    · obtain ⟨hsome, hnone⟩ := h.params _ cached hc
      cases hp : o.params p with
      | none =>
        rw [(hnone p).mpr hp] at hhit
        cases hhit
      | some k =>
        refine hcopy (some k) fun hv => ?_
        obtain ⟨j, hj, hprod⟩ := hsome p v hhit hv
        exact ⟨j, hp.symm.trans hj, hprod⟩
    · rw [((h.params _ cached hc).2 p).mp hmiss]
      exact (h.fetch hc ha hregs hcached).bind fun _ =>
        ⟨o.events.length, rfl, o.produced_allocate v⟩
  | load value type =>
    dsimp only
    obtain ⟨w, hw, hload⟩ := hform
    obtain ⟨hreg, hnot⟩ := h.ofTerm hw
    obtain ⟨hv, rfl, rfl⟩ | ⟨hv, ha, -⟩ := Emit.loadValue_acquires h.strict hload
    · obtain ⟨k, hk, hprod⟩ := hreg hv
      rw [hk]
      exact hcopy (some k) fun _ => ⟨k, rfl, hprod⟩
    · rw [hnot hv]
      exact hevent ha
  | alloc type => exact hevent (Emit.allocReg_acquires h.strict hform).1
  | call c =>
    obtain ⟨args, hcall | ⟨type, hcall⟩⟩ := hform
    · exact hevent (Emit.call_acquires h.strict hcall).1
    · exact hevent (Emit.callAs_acquires h.strict hcall).1
  | cast value type =>
    obtain ⟨w, hcast⟩ := hform
    exact hevent (Emit.cast_acquires h.strict hcast).1
  | term value =>
    obtain ⟨rfl, hv⟩ := hform
    exact hcopy _ (h.ofTerm hv).1

theorem stmt (h : o.Tracks t em) {form : StmtForm} {em' : Emitter} (hs : em.Does form em') :
    (o.noteStmt em em' form).Tracks t em' := by
  cases hs with
  | @declare _ name v ms hname hv hkeep =>
    have hnote : ∀ em', o.noteStmt em em' form = o.bind em name none := by
      intro em'
      cases form <;> cases hname <;> rfl
    rw [hnote]
    exact (h.keeps (hkeep h.strict)).bind fun hr => by simp [hv] at hr
  | @bind name value v em₁ hvalue =>
    rw [noteStmt, Emitter.lookup_bind_self, Option.getD_some]
    exact h.bindExpr hvalue
  | @free name v ms hlookup hv hrelease =>
    rw [noteStmt, hlookup]
    exact (h.release hv hrelease).unbind name
  | @other _ ms hform hkeep =>
    have hnote : ∀ em', o.noteStmt em em' form = o := by
      intro em'
      cases form <;> first | rfl | cases hform
    rw [hnote]
    exact h.keeps (hkeep h.strict)

theorem command (h : o.Tracks t em) {c : Command} {u : Unit} {em' : Emitter}
    (hc : c.emit.Yields em u em') : (o.note em em' c).Tracks t em' := by
  cases c with
  | stmt s => exact h.stmt (Emission.stmt_does hc)
  | enter f =>
    rw [Command.emit, Emission.yields_bind] at hc
    obtain ⟨ref, em₁, hbegin, hc⟩ := hc
    obtain ⟨ms, hms, rfl⟩ := Emission.yields_engine.mp hbegin
    rw [Emission.yields_modify.mp hc]
    exact h.enter hms ref
  | leave f =>
    rw [Command.emit, Emission.yields_get_bind] at hc
    dsimp only at hc
    split at hc
    case h_1 s hs =>
      rw [Emission.yields_bind] at hc
      obtain ⟨_, em₁, hend, hc⟩ := hc
      obtain ⟨ms, hms, rfl⟩ := Emission.yields_engine.mp hend
      rw [Emission.yields_modify.mp hc]
      exact h.leave hms
    case h_2 hs =>
      rw [Emission.yields_modify.mp hc]
      refine ⟨h.kind, h.held, h.handles, h.history, h.globals, fun s hs => ?_, h.params⟩
      cases hs

theorem follow (h : o.Tracks t em) {cs : List Command} {u : Unit} {em' : Emitter}
    (hcs : (runAll cs).Yields em u em') : (o.follow em cs).Tracks t em' := by
  induction cs generalizing o em with
  | nil =>
    obtain ⟨-, rfl⟩ := Emission.yields_pure.mp hcs
    exact h
  | cons c cs ih =>
    obtain ⟨_, em₁, hc, hcs⟩ := Emission.yields_bind.mp hcs
    have hafter : (c.emit.outcome em).2 = em₁ := congrArg Prod.snd hc
    rw [Origins.follow, hafter]
    exact ih (h.command hc) hcs

/-- The handles of two events name one register if that was the first one that was free when the
second event happened, and so not if the first event held it. -/
theorem name_eq_iff (h : o.Tracks t em) {i j : Nat} {w : Value} (hi : o.Produced i v)
    (hj : o.Produced j w) (hc : v.regClass = w.regClass) :
    (v.name = w.name ↔ o.spareAt t j v.regClass = some v.name) ∧
      (o.HeldWhen i j → v.name ≠ w.name) := by
  obtain ⟨ev, hev, rfl⟩ := Option.map_eq_some_iff.mp hj
  obtain ⟨hbefore, hspare⟩ := h.history ev (List.mem_of_getElem? hev)
  have hat : o.spareAt t j v.regClass = some ev.handle.name := by
    rw [spareAt, hev, hc]
    exact hspare
  refine ⟨by rw [hat, Option.some.injEq, eq_comm], ?_⟩
  rintro ⟨ev', hev', hheld⟩ hname
  cases hev.symm.trans hev'
  obtain ⟨⟨_, u⟩, hu, rfl⟩ := List.mem_map.mp hheld
  obtain rfl : u = v := Option.some.inj ((hbefore _ hu).symm.trans hi)
  have hfree := List.find?_some hspare
  have htaken : u ∈ RegisterFile.ofClass ev.handle.regClass (ev.before.map (·.2)) :=
    List.mem_filter.mpr ⟨List.mem_map_of_mem hu, by simpa using hc⟩
  rw [← hname] at hfree
  simp [List.mem_map_of_mem htaken] at hfree

end Tracks

end Origins

/-- A point between two statements of a script on a strict engine: some commands have
succeeded, and the run goes on with the rest.  Every visible name that is bound to a register
has an event there.  Names with handles of the same class that two events produced denote one
register exactly if it was the first one that was free when the second event happened.  So they
denote different registers if the first event held its register then. -/
theorem exclusive (t : Target) (s : Script) (cs rest : List Command) (em : Emitter)
    (hcs : s.commands = cs ++ rest) (hrun : (runAll cs).Yields (.new (.new t true)) () em) :
    let o := Origins.start.follow (.new (.new t true)) cs
    s.emit (.new t true) =
        (((runAll rest).outcome em).1.mapError fun x => { x with file := s.file },
          ((runAll rest).outcome em).2.engine) ∧
      (∀ x v, em.lookup x = some v → v.isRegister → ∃ i, o.eventOf em x = some i) ∧
      ∀ x y v w i j, em.lookup x = some v → em.lookup y = some w → v.isRegister → w.isRegister →
        v.regClass = w.regClass → o.eventOf em x = some i → o.eventOf em y = some j →
        (v.name = w.name ↔ o.spareAt t j v.regClass = some v.name) ∧
          (o.HeldWhen i j → v.name ≠ w.name) := by
  intro o
  have h : o.Tracks t em := (Origins.Tracks.new t).follow hrun
  refine ⟨?_, fun x v hx hv => ?_, ?_⟩
  · rw [emit_eq_runAll, hcs, Emission.runAll_append, Emission.outcome_bind, hrun]
  · obtain ⟨i, hi, -⟩ := h.lookup hx hv
    exact ⟨i, hi⟩
  · intro x y v w i j hx hy hv hw hc hi hj
    obtain ⟨i', hi', hpi⟩ := h.lookup hx hv
    obtain ⟨j', hj', hpj⟩ := h.lookup hy hw
    cases hi'.symm.trans hi
    cases hj'.symm.trans hj
    exact h.name_eq_iff hpi hpj hc

/-- The script of a text; an empty one if the text is none. -/
def ofText (source : Text) : Script := ((parse source).toOption).getD ⟨.nowhere, none, [], []⟩

/-- The state of a run on the wide target after commands. -/
def stateAfter (cs : List Command) : Emitter :=
  ((runAll cs).outcome (.new (.new .bits64 true))).2

/-- The events of a run on the wide target. -/
def eventsOf (cs : List Command) : Origins := Origins.start.follow (.new (.new .bits64 true)) cs

theorem yields_stateAfter (cs : List Command)
    (h : ((runAll cs).outcome (.new (.new .bits64 true))).1 = .ok ()) :
    (runAll cs).Yields (.new (.new .bits64 true)) () (stateAfter cs) :=
  Prod.ext h rfl

/-- A handle is copied and another register taken, a function begins, a parameter is fetched,
and a register is given back that another name still names. -/
def copying : Script :=
  ofText ("let x = alloc int64\nlet y = x\nlet z = alloc int64\nfunc f(a int64) \x7b\n" ++
    "let p = param a\nlet q = alloc int64\nlet r = q\nfree q\nlet s = cast p to int32\n\x7d\n")

/-- The function has taken the registers of `y` and `z` back, but they are two all the same. -/
theorem exclusive_copying :
    let em := stateAfter (copying.commands.take 9)
    ∃ y z p s, em.lookup "y" = some y ∧ em.lookup "z" = some z ∧ em.lookup "p" = some p ∧
      em.lookup "s" = some s ∧ y.name ≠ z.name ∧ p.name ≠ s.name := by
  have hrun := yields_stateAfter (copying.commands.take 9) (by decide +kernel)
  obtain ⟨-, -, h⟩ := exclusive .bits64 copying _ (copying.commands.drop 9) _
    (List.take_append_drop ..).symm hrun
  let em := stateAfter (copying.commands.take 9)
  let o := eventsOf (copying.commands.take 9)
  obtain ⟨hy, hz, hp, hs⟩ : em.lookup "y" = some (.ofRegister "rbx" "int64" true) ∧
      em.lookup "z" = some (.ofRegister "r12" "int64" true) ∧
      em.lookup "p" = some (.ofRegister "rbx" "int64" false) ∧
      em.lookup "s" = some (.ofRegister "r12" "int32" true) := by decide +kernel
  obtain ⟨hyi, hzi, hpi, hsi, hyz, hps⟩ : o.eventOf em "y" = some 0 ∧ o.eventOf em "z" = some 1 ∧
      o.eventOf em "p" = some 2 ∧ o.eventOf em "s" = some 4 ∧ o.HeldWhen 0 1 ∧ o.HeldWhen 2 4 := by
    decide +kernel
  exact ⟨_, _, _, _, hy, hz, hp, hs, (h _ _ _ _ 0 1 hy hz rfl rfl rfl hyi hzi).2 hyz,
    (h _ _ _ _ 2 4 hp hs rfl rfl rfl hpi hsi).2 hps⟩

/-- A register is given back that another name still names, and then a function begins
between two requests for a register. -/
def reusing : Script :=
  ofText ("let x = alloc int64\nlet y = x\nfree x\nlet w = alloc int64\n" ++
    "func f() \x7b\n\x7d\nlet z = alloc int64\n")

/-- Without that, names with handles of different events can share a register.  The copy `y`
shares that of `w` after `x` gave it back, and `w` shares that of `z` after a function began,
though nobody gave it back. -/
theorem shared_reusing :
    let freed := stateAfter (reusing.commands.take 4)
    let ended := stateAfter reusing.commands
    let o := eventsOf (reusing.commands.take 4)
    let o' := eventsOf reusing.commands
    let rbx : Value := .ofRegister "rbx" "int64" true
    (runAll reusing.commands).Yields (.new (.new .bits64 true)) () ended ∧
      freed.lookup "y" = some rbx ∧ freed.lookup "w" = some rbx ∧
      o.eventOf freed "y" = some 0 ∧ o.eventOf freed "w" = some 1 ∧ ¬ o.HeldWhen 0 1 ∧
      ended.lookup "w" = some rbx ∧ ended.lookup "z" = some rbx ∧
      o'.eventOf ended "w" = some 1 ∧ o'.eventOf ended "z" = some 2 ∧
      ¬ o'.HeldWhen 1 2 :=
  ⟨yields_stateAfter _ (by decide +kernel), by decide +kernel⟩

end Assembly.Script
