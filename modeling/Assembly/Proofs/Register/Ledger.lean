import Assembly.Proofs.Engine.Registers

/-!
# Ledgers

A ledger keeps track of the register handles that a caller owns, from the requests and the
replies alone.  A handle is outstanding from the reply that returns it until it is
released, until a function begins, or until all registers are taken back.  The handle of a
parameter is permanent: releasing it changes nothing.

`inUse_eq_held` says that a strict engine's registers in use are at every point the ones
that outstanding handles name, as long as every request is granted and no handle is
released that is not outstanding.
-/

namespace Assembly

/-- The outstanding handles in the order in which they were returned, and the parameters
that the function has fetched since it began. -/
structure Ledger where
  held : List Value
  fetched : Bindings
deriving DecidableEq, Repr

namespace Ledger

def empty : Ledger := ⟨[], []⟩

def hold (l : Ledger) (v : Value) : Ledger := { l with held := l.held ++ [v] }

/-- Holds the handle of a parameter that was fetched. -/
def fetch (l : Ledger) (name : Text) (v : Value) : Ledger :=
  ⟨l.held ++ [v], l.fetched.insert name v⟩

def isParam (l : Ledger) (v : Value) : Bool := l.fetched.any (·.2 = v)

/-- Writes down a request that was granted, with its reply. -/
def note (l : Ledger) : Request → Reply → Ledger
  | .alloc _, .value v | .call _ _, .value v | .callAs _ _ _, .value v | .cast _ _, .value v =>
    l.hold v
  | .load w _, .value v => if w.isRegister then l else l.hold v
  | .param _ name, .value v =>
    if (l.fetched.get? name).isSome then l else l.fetch name v
  | .release v, _ => if l.isParam v then l else { l with held := l.held.erase v }
  | .beginFunction _ _, _ => empty
  | .resetRegs, _ => { l with held := [] }
  | _, _ => l

/-- Whether the caller may make a request: a temporary register that is released must be
outstanding. -/
def permits (l : Ledger) : Request → Bool
  | .release v => !(v.isRegister && v.temp) || l.held.contains v
  | _ => true

/-- Whether requests made of an engine in turn are all granted, each one permitted. -/
def orderly (l : Ledger) (e : Engine) : List Request → Bool
  | [] => true
  | q :: qs =>
    match e.reply q with
    | .ok r => l.permits q && (l.note q r).orderly (e.serve q) qs
    | .error _ => false

def follow (l : Ledger) (e : Engine) : List Request → Ledger
  | [] => l
  | q :: qs =>
    match e.reply q with
    | .ok r => (l.note q r).follow (e.serve q) qs
    | .error _ => l.follow (e.serve q) qs

/-! ## Agreement of an engine with a ledger -/

/-- The engine is strict, its registers are held by the outstanding handles, and the open
function has fetched what the ledger says.  Only handles of parameters are permanent. -/
structure Matches (l : Ledger) (e : Engine) : Prop where
  strict : e.regs.strict
  held : e.regs.HeldBy l.held
  fetched : ∀ id cached, e.cached = some (id, cached) → cached = l.fetched
  temporary : ∀ v ∈ l.held, v.temp ∨ l.isParam v
  permanent : ∀ v, l.isParam v → v.temp = false

namespace Matches

variable {l : Ledger} {e : Engine} {ms : List Move} {v : Value}

theorem new (t : Target) : empty.Matches (.new t true) := by
  refine ⟨rfl, .reset (.new t true), ?_, ?_, ?_⟩
  · intro id cached h
    cases h
  · intro v hv
    cases hv
  · intro v hv
    cases hv

theorem keeps (m : l.Matches e) (h : e.Keeps ms) : l.Matches (e.makeAll ms) := by
  refine ⟨by simpa using m.strict, ?_, ?_, m.temporary, m.permanent⟩
  · rw [h.regs]; exact m.held
  · rw [h.cached]; exact m.fetched

theorem acquires (m : l.Matches e) (h : e.Acquires ms v) (htemp : v.temp) :
    (l.hold v).Matches (e.makeAll ms) := by
  refine ⟨by simpa using m.strict, ?_, ?_, ?_, m.permanent⟩
  · rw [h.regs]; exact m.held.acquire h.isRegister h.free
  · rw [h.cached]; exact m.fetched
  · intro u hu
    rcases List.mem_append.mp hu with hu | hu
    · exact m.temporary u hu
    · rw [List.mem_singleton.mp hu]; exact .inl htemp

theorem release (m : l.Matches e) (hp : l.permits (.release v))
    (h : (Emit.release v).Grants e () ms) : (l.note (.release v) .done).Matches (e.makeAll ms) := by
  -- Only temporary registers are given back, and those are no parameters.
  by_cases hv : v.isRegister ∧ v.temp
  · have hmem : v ∈ l.held := by simpa [permits, hv] using hp
    have hparam : l.isParam v = false := by
      by_contra hne
      have := m.permanent v (by simpa using hne)
      rw [this] at hv
      cases hv.2
    have hnote : l.note (.release v) .done = { l with held := l.held.erase v } := by
      rw [note, hparam]
      rfl
    obtain ⟨hregs, hcached⟩ := Emit.release_registers hv.1 h
    rw [hnote]
    refine ⟨by simpa using m.strict, ?_, ?_, ?_, m.permanent⟩
    · rw [hregs, if_pos hv.2, ← m.held.without_eq_erase hmem]
      exact m.held.free v.regClass v.name
    · rw [hcached]; exact m.fetched
    · exact fun u hu => m.temporary u (List.mem_of_mem_erase hu)
  · have hquiet : Move.essence ms = [] := by
      have hmoves := Emit.release_essence v e
      rw [h, if_neg fun hc => hv ⟨hc.1, hc.2.1⟩] at hmoves
      exact hmoves
    have hkeep : l.Matches (e.makeAll ms) := m.keeps (Emit.keeps_of_quiet hquiet)
    -- A handle that is no temporary register is a parameter's, or nobody holds it.
    cases hparam : l.isParam v with
    | true => simpa [note, hparam] using hkeep
    | false =>
      have hnot : v ∉ l.held := by
        intro hmem
        rcases m.temporary v hmem with ht | ht
        · exact hv ⟨m.held.registers v hmem, ht⟩
        · rw [hparam] at ht
          cases ht
      simpa [note, hparam, List.erase_of_not_mem hnot] using hkeep

theorem isParam_fetch {name : Text} (hname : l.fetched.get? name = none) (u v : Value) :
    (l.fetch name v).isParam u = (decide (v = u) || l.isParam u) := by
  simp [isParam, fetch, Bindings.insert, Bindings.erase_of_get?_eq_none hname]

theorem param {f : FunctionRef} {name : Text} (m : l.Matches e)
    (h : (Emit.param f name).Grants e v ms) :
    (l.note (.param f name) (.value v)).Matches (e.makeAll ms) := by
  obtain ⟨cached, hcached, ⟨hsome, rfl⟩ | ⟨hnone, htemp, ms₁, hacq, hregs, hfetch⟩⟩ :=
    Emit.param_acquires m.strict h
  · rw [m.fetched _ _ hcached] at hsome
    have hnote : l.note (.param f name) (.value v) = l := by simp [note, hsome]
    rw [hnote]
    exact m
  · rw [m.fetched _ _ hcached] at hnone hfetch
    have hnote : l.note (.param f name) (.value v) = l.fetch name v := by simp [note, hnone]
    rw [hnote]
    refine ⟨by simpa using m.strict, ?_, ?_, ?_, ?_⟩
    · rw [hregs, hacq.regs]; exact m.held.acquire hacq.isRegister hacq.free
    · intro id cached' h'
      rw [hfetch] at h'
      cases h'
      rfl
    · intro u hu
      rw [isParam_fetch hnone]
      rcases List.mem_append.mp hu with hu | hu
      · exact (m.temporary u hu).imp_right fun ht => by simp [ht]
      · exact .inr (by simp [List.mem_singleton.mp hu])
    · intro u hu
      rw [isParam_fetch hnone, Bool.or_eq_true] at hu
      rcases hu with hvu | hu
      · rw [← of_decide_eq_true hvu]; exact htemp
      · exact m.permanent u hu

theorem beginFunction {f : FunctionRef} {name : Text} {params : List Param} (m : l.Matches e)
    (h : (Emit.beginFunction name params).Grants e f ms) : empty.Matches (e.makeAll ms) := by
  obtain ⟨hregs, hcached⟩ := Emit.beginFunction_registers h
  refine ⟨by simpa using m.strict, ?_, ?_, ?_, ?_⟩
  · rw [hregs]; exact .reset e.regs
  · intro id cached h'
    rw [hcached] at h'
    cases h'
    rfl
  · intro v hv
    cases hv
  · intro v hv
    cases hv

theorem endFunction {f : FunctionRef} {u : Unit} (m : l.Matches e)
    (h : (Emit.endFunction f).Grants e u ms) : l.Matches (e.makeAll ms) := by
  obtain ⟨hregs, hcached⟩ := Emit.endFunction_registers h
  refine ⟨by simpa using m.strict, ?_, ?_, m.temporary, m.permanent⟩
  · rw [hregs]; exact m.held
  · intro id cached h'
    rw [hcached] at h'
    cases h'

theorem resetRegs (m : l.Matches e) :
    Matches { l with held := [] } (e.makeAll [.resetRegs]) := by
  refine ⟨m.strict, .reset e.regs, m.fetched, ?_, m.permanent⟩
  intro v hv
  cases hv

/-- One request that is granted and permitted keeps the agreement. -/
theorem serve {q : Request} {r : Reply} (m : l.Matches e) (hr : e.reply q = .ok r)
    (hp : l.permits q) : (l.note q r).Matches (e.serve q) := by
  have h : q.emit.Grants e r (e.movesOf q) := Prod.ext hr rfl
  rw [Engine.serve]
  generalize e.movesOf q = ms at h ⊢
  cases q with
  | declareGlobal name type =>
    obtain ⟨v, hv, rfl⟩ := Emit.grants_map.mp h
    exact m.keeps (Emit.keeps_of_quiet (Emit.declareGlobal_moves hv).2)
  | declareConst name lit type =>
    obtain ⟨v, hv, rfl⟩ := Emit.grants_map.mp h
    exact m.keeps (Emit.keeps_of_quiet (Emit.declareConst_moves hv).2)
  | alloc type =>
    obtain ⟨v, hv, rfl⟩ := Emit.grants_map.mp h
    obtain ⟨hacq, htemp⟩ := Emit.allocReg_acquires m.strict hv
    exact m.acquires hacq htemp
  | release v =>
    obtain ⟨⟨⟩, hv, rfl⟩ := Emit.grants_map.mp h
    exact m.release hp hv
  | load w type =>
    obtain ⟨v, hv, rfl⟩ := Emit.grants_map.mp h
    obtain ⟨hw, rfl, rfl⟩ | ⟨hw, hacq, htemp⟩ := Emit.loadValue_acquires m.strict hv
    · simpa [note, hw] using m
    · simpa [note, hw] using m.acquires hacq htemp
  | call name args =>
    obtain ⟨v, hv, rfl⟩ := Emit.grants_map.mp h
    obtain ⟨hacq, htemp⟩ := Emit.call_acquires m.strict hv
    exact m.acquires hacq htemp
  | callAs name args type =>
    obtain ⟨v, hv, rfl⟩ := Emit.grants_map.mp h
    obtain ⟨hacq, htemp⟩ := Emit.callAs_acquires m.strict hv
    exact m.acquires hacq htemp
  | cast w type =>
    obtain ⟨v, hv, rfl⟩ := Emit.grants_map.mp h
    obtain ⟨hacq, htemp⟩ := Emit.cast_acquires m.strict hv
    exact m.acquires hacq htemp
  | print v =>
    obtain ⟨_, hu, rfl⟩ := Emit.grants_map.mp h
    exact m.keeps (Emit.print_keeps m.strict hu)
  | printFloat v =>
    obtain ⟨_, hu, rfl⟩ := Emit.grants_map.mp h
    exact m.keeps (Emit.printFloat_keeps m.strict hu)
  | exit code =>
    obtain ⟨_, hu, rfl⟩ := Emit.grants_map.mp h
    exact m.keeps (Emit.exit_keeps hu)
  | rawLine t =>
    obtain ⟨_, hu, rfl⟩ := Emit.grants_map.mp h
    rw [Emit.grants_move.mp hu]
    exact m.keeps (Engine.Keeps.raws e [t])
  | rawInstr t =>
    obtain ⟨_, hu, rfl⟩ := Emit.grants_map.mp h
    rw [Emit.grants_move.mp hu]
    exact m.keeps (Engine.Keeps.raws e [Emit.indented t])
  | rawBlock t =>
    obtain ⟨_, hu, rfl⟩ := Emit.grants_map.mp h
    exact m.keeps (Emit.block_keeps hu)
  | beginFunction name params =>
    obtain ⟨f, hf, rfl⟩ := Emit.grants_map.mp h
    exact m.beginFunction hf
  | declareLocal f name type =>
    obtain ⟨v, hv, rfl⟩ := Emit.grants_map.mp h
    exact m.keeps (Emit.declareLocal_keeps hv)
  | param f name =>
    obtain ⟨v, hv, rfl⟩ := Emit.grants_map.mp h
    exact m.param hv
  | returnValue f v =>
    obtain ⟨_, hu, rfl⟩ := Emit.grants_map.mp h
    exact m.keeps (Emit.returnValue_keeps hu)
  | endFunction f =>
    obtain ⟨_, hu, rfl⟩ := Emit.grants_map.mp h
    exact m.endFunction hu
  | resetRegs =>
    obtain ⟨_, hu, rfl⟩ := Emit.grants_map.mp h
    rw [Emit.grants_move.mp hu]
    exact m.resetRegs
  | finalize =>
    obtain ⟨t, ht, rfl⟩ := Emit.grants_map.mp h
    exact m.keeps (Emit.keeps_of_quiet (Emit.finalize_quiet ht))

/-- The agreement holds after every orderly run. -/
theorem follow {qs : List Request} (m : l.Matches e) (h : l.orderly e qs) :
    (l.follow e qs).Matches (e.serveAll qs) := by
  induction qs generalizing l e with
  | nil => exact m
  | cons q qs ih =>
    rw [orderly] at h
    rw [Ledger.follow]
    cases hr : e.reply q with
    | error x =>
      rw [hr] at h
      cases h
    | ok r =>
      rw [hr] at h
      obtain ⟨hp, hrest⟩ := (Bool.and_eq_true ..).mp h
      exact ih (m.serve hr hp) hrest

theorem reply_param {f : FunctionRef} {name : Text} {g : Frame} (m : l.Matches e)
    (hg : e.current = some g) (hid : g.id = f.id) (hv : l.fetched.get? name = some v) :
    e.reply (.param f name) = .ok (.value v) ∧ e.serve (.param f name) = e := by
  have hcached : g.cached = l.fetched := m.fetched g.id g.cached (by rw [Engine.cached, hg]; rfl)
  have h : (Emit.param f name).Grants e v [] := by
    rw [Emit.param, Emit.grants_bind]
    refine ⟨g, [], ?_, [], ?_, rfl⟩
    · rw [Emit.openFrame, Emit.grants_read_bind, hg]
      simp [hid]
    · rw [hcached, hv]
      simp
  have hq : (Request.param f name).emit.Grants e (.value v) [] := Emit.grants_map.mpr ⟨v, h, rfl⟩
  rw [Emit.Grants] at hq
  exact ⟨congrArg Prod.fst hq, by rw [Engine.serve, Engine.movesOf, hq]; rfl⟩

end Matches

theorem orderly_of_prefix {l : Ledger} {e : Engine} {pre qs : List Request} (hpre : pre <+: qs)
    (h : l.orderly e qs) : l.orderly e pre := by
  obtain ⟨rest, rfl⟩ := hpre
  induction pre generalizing l e with
  | nil => rfl
  | cons q pre ih =>
    rw [List.cons_append, orderly] at h
    rw [orderly]
    cases hr : e.reply q with
    | error x =>
      rw [hr] at h
      cases h
    | ok r =>
      rw [hr] at h
      obtain ⟨hp, hrest⟩ := (Bool.and_eq_true ..).mp h
      exact (Bool.and_eq_true ..).mpr ⟨hp, ih hrest⟩

end Ledger

/-- At every point of an orderly run of a strict engine, the registers in use are the ones
that the outstanding handles name, in the order of allocation.  No two handles of a class
name the same register, and a parameter that was fetched is returned again without a
change to the engine. -/
theorem Engine.inUse_eq_held (t : Target) (qs : List Request)
    (h : Ledger.empty.orderly (.new t true) qs) (pre : List Request) (hpre : pre <+: qs) :
    let e := (Engine.new t true).serveAll pre
    let l := Ledger.empty.follow (.new t true) pre
    (∀ c, e.regs.inUse c = (RegisterFile.ofClass c l.held).map (·.name)) ∧
      (∀ c, ((RegisterFile.ofClass c l.held).map (·.name)).Nodup) ∧
      ∀ f name v g, e.current = some g → g.id = f.id → l.fetched.get? name = some v →
        e.reply (.param f name) = .ok (.value v) ∧ e.serve (.param f name) = e := by
  intro e l
  have m : l.Matches e := (Ledger.Matches.new t).follow (Ledger.orderly_of_prefix hpre h)
  refine ⟨m.held.inUse, fun c => m.held.inUse c ▸ m.held.nodup c, ?_⟩
  intro f name v g hg hid hv
  exact m.reply_param hg hid hv

/-- A run with a permanent handle, which is released in vain, and two temporary ones. -/
def Ledger.sampleRun : List Request :=
  let x : Value := .ofRegister "rbx" "int32" false
  [.alloc "int64", .beginFunction "f" [⟨"x", "int32"⟩], .param ⟨0, "f"⟩ "x", .cast x "float",
    .release (.ofRegister "xmm0" "float" true), .release x, .print x, .param ⟨0, "f"⟩ "x"]

theorem Engine.inUse_eq_held_sampleRun :
    Ledger.empty.orderly (.new .bits64 true) Ledger.sampleRun = true ∧
      ∀ c, ((Engine.new .bits64 true).serveAll Ledger.sampleRun).regs.inUse c =
        (RegisterFile.ofClass c (Ledger.empty.follow (.new .bits64 true) Ledger.sampleRun).held).map
          (·.name) :=
  have h : Ledger.empty.orderly (.new .bits64 true) Ledger.sampleRun = true := by decide +kernel
  ⟨h, (Engine.inUse_eq_held .bits64 Ledger.sampleRun h _ (List.prefix_refl _)).1⟩

end Assembly
