import Assembly.Proofs.Engine.Move
import Assembly.Proofs.Register.File
import Mathlib.Algebra.GroupWithZero.Nat
import Mathlib.Data.List.Induction
import Mathlib.Data.List.Nodup

/-!
# The chronicle of a run

A run of requests is a run of moves.  The chronicle reads the functions off the moves: for
each function the lines that went out while it was open, the integer registers that were
freshly handed out meanwhile, and its locals.  It does not look at how the engine keeps an
open function.

`Chronicle.describes_of` says that the engine and the chronicle agree after every run.  It
follows from one lemma about a single move, because operations change an engine by moves
only.
-/

namespace Assembly

/-- What happened while a function was open. -/
structure Episode where
  name : Text
  requests : List Request
  emitted : List Line
  taken : List Text
  locals : List Text
deriving DecidableEq, Repr

namespace Episode

def new (name : Text) : Episode := ⟨name, [], [], [], []⟩

/-- The registers that were handed out, in the order of their first use. -/
def saves (p : Episode) : List Text := p.taken.eraseDups

def localSize (t : Target) (p : Episode) : Nat := (p.locals.map t.typeSize).sum

/-- The label and the two instructions that set up the base pointer. -/
def header (t : Target) (p : Episode) : List Line :=
  [.label p.name, .op .push [.reg t.basePointer],
    .op .mov [.reg t.basePointer, .reg t.stackPointer]]

/-- The room for the locals; a function without locals reserves none. -/
def reservation (t : Target) (p : Episode) : List Line :=
  if 0 < p.localSize t then [.op .sub [.reg t.stackPointer, .num (p.localSize t)]] else []

/-- The code of the function: its header, the room for its locals, a save of each register
in the reverse order of first use, the lines that went out, the restores in the order of
first use, and the way back to the caller. -/
def block (t : Target) (p : Episode) : List Line :=
  p.header t ++ p.reservation t ++ p.saves.reverse.map (fun r => Line.op .push [.reg r]) ++
    p.emitted ++ p.saves.map (fun r => Line.op .pop [.reg r]) ++
    [Line.op .mov [.reg t.stackPointer, .reg t.basePointer], Line.op .pop [.reg t.basePointer],
      Line.op .ret []]

end Episode

/-- The functions of a run, those that ended and the one that is open, and the routines
that were linked. -/
structure Chronicle where
  closed : List Episode
  opened : Option Episode
  linked : List Builtin
deriving DecidableEq, Repr

namespace Chronicle

def empty : Chronicle := ⟨[], none, []⟩

def mapOpened (h : Chronicle) (f : Episode → Episode) : Chronicle :=
  { h with opened := h.opened.map f }

theorem mapOpened_of_none {h : Chronicle} (ho : h.opened = none) (f : Episode → Episode) :
    h.mapOpened f = h := by
  rw [mapOpened, ho, Option.map_none, ← ho]

/-- The integer register that is handed out next, if it is a fresh one. -/
def freshInt? (e : Engine) : RegClass → Option Text
  | .int => e.regs.firstFree? .int
  | .float => none

/-- Writes down a move of an engine. -/
def note (h : Chronicle) (e : Engine) : Move → Chronicle
  | .instr i => h.mapOpened fun p => { p with emitted := p.emitted ++ [.instr i] }
  | .raw t => h.mapOpened fun p => { p with emitted := p.emitted ++ [.raw t] }
  | .take c => h.mapOpened fun p => { p with taken := p.taken ++ (freshInt? e c).toList }
  | .addLocal _ type => h.mapOpened fun p => { p with locals := p.locals ++ [type] }
  | .enter name _ => { h with opened := some (h.opened.getD (.new name)) }
  | .leave => { h with closed := h.closed ++ h.opened.toList, opened := none }
  | .link b => { h with linked := h.linked ++ [b] }
  | _ => h

def noteAll (h : Chronicle) (e : Engine) : List Move → Chronicle
  | [] => h
  | m :: ms => (h.note e m).noteAll (e.make m) ms

/-- A request belongs to the function that is open when it is made. -/
def addRequest (h : Chronicle) (q : Request) : Chronicle :=
  h.mapOpened fun p => { p with requests := p.requests ++ [q] }

def ask (h : Chronicle) (e : Engine) (q : Request) : Chronicle :=
  (h.addRequest q).noteAll e (e.movesOf q)

def follow (h : Chronicle) (e : Engine) : List Request → Chronicle
  | [] => h
  | q :: qs => (h.ask e q).follow (e.serve q) qs

def of (t : Target) (strict : Bool) (qs : List Request) : Chronicle :=
  empty.follow (.new t strict) qs

end Chronicle

/-! ## Registers at their first place -/

theorem eraseDups_concat (rs : List Text) (r : Text) :
    (rs ++ [r]).eraseDups = if r ∈ rs then rs.eraseDups else rs.eraseDups ++ [r] := by
  rw [List.eraseDups_append]
  by_cases h : r ∈ rs
  · simp [h, List.removeAll]
  · simp [h, List.removeAll, List.eraseDups_cons]

theorem mem_eraseDups (rs : List Text) (r : Text) : r ∈ rs.eraseDups ↔ r ∈ rs := by
  induction rs using List.reverseRecOn with
  | nil => simp
  | append_singleton rs s ih =>
    rw [eraseDups_concat]
    split
    case isTrue hs =>
      rw [ih, List.mem_append, List.mem_singleton]
      exact ⟨Or.inl, fun h => h.elim id fun hrs => hrs ▸ hs⟩
    case isFalse => rw [List.mem_append, List.mem_append, ih]

theorem nodup_eraseDups (rs : List Text) : rs.eraseDups.Nodup := by
  induction rs using List.reverseRecOn with
  | nil => simp
  | append_singleton rs s ih =>
    rw [eraseDups_concat]
    split
    case isTrue => exact ih
    case isFalse hs =>
      rw [List.nodup_append]
      refine ⟨ih, List.nodup_singleton s, ?_⟩
      intro a ha b hb hab
      rw [List.mem_singleton] at hb
      rw [mem_eraseDups] at ha
      exact hs (hb ▸ hab ▸ ha)

/-! ## Agreement of an engine with a chronicle -/

/-- A frame holds what its episode tells: the saves in front of the lines that went out. -/
structure Episode.Describes (t : Target) (p : Episode) (f : Frame) : Prop where
  name : f.name = p.name
  saved : f.saved = p.saves
  lines : f.lines = p.saves.reverse.map (fun r => Line.op .push [.reg r]) ++ p.emitted
  localSize : f.localSize = p.localSize t

/-- The engine holds what the chronicle tells. -/
structure Chronicle.Describes (h : Chronicle) (e : Engine) : Prop where
  funcs : e.funcs = h.closed.flatMap (Episode.block e.target) ++
    (h.opened.map (Episode.header e.target)).getD []
  builtins : e.builtins = h.linked.flatMap (Builtin.code e.target)
  current : Option.Rel (Episode.Describes e.target) h.opened e.current
  ended : e.ended.map (·.saved) = h.closed.map Episode.saves

namespace Episode.Describes

variable {t : Target} {p : Episode} {f : Frame}

theorem new (t : Target) (id : Nat) (name : Text) (params : List Param) :
    Episode.Describes t (.new name) (.new id name params) :=
  ⟨rfl, rfl, rfl, rfl⟩

theorem addLine (d : p.Describes t f) (l : Line) :
    Episode.Describes t { p with emitted := p.emitted ++ [l] } (f.addLine l) := by
  refine ⟨d.name, d.saved, ?_, d.localSize⟩
  show f.lines ++ [l] = _
  rw [d.lines, List.append_assoc]
  rfl

theorem noteClobber (d : p.Describes t f) (r : Text) :
    Episode.Describes t { p with taken := p.taken ++ [r] } (f.noteClobber r) := by
  have hsaves : Episode.saves { p with taken := p.taken ++ [r] } =
      if r ∈ p.taken then p.saves else p.saves ++ [r] := eraseDups_concat p.taken r
  have hmem : r ∈ f.saved ↔ r ∈ p.taken := by rw [d.saved, Episode.saves, mem_eraseDups]
  -- The half-built function keeps its saves in front of the lines, newest first.  A register
  -- that was taken before adds none.
  by_cases hr : r ∈ p.taken
  · have hf : f.noteClobber r = f := by simp [Frame.noteClobber, hmem.mpr hr]
    rw [if_pos hr] at hsaves
    rw [hf]
    exact ⟨d.name, d.saved.trans hsaves.symm, by rw [hsaves]; exact d.lines, d.localSize⟩
  · have hf : f.noteClobber r =
        { f with saved := f.saved ++ [r], lines := .op .push [.reg r] :: f.lines } := by
      simp [Frame.noteClobber, mt hmem.mp hr]
    rw [if_neg hr] at hsaves
    rw [hf]
    refine ⟨d.name, ?_, ?_, d.localSize⟩
    · rw [hsaves, ← d.saved]
    · rw [hsaves, List.reverse_append]
      simp [d.lines]

theorem addLocal (d : p.Describes t f) (name type : Text) :
    Episode.Describes t { p with locals := p.locals ++ [type] } (f.addLocal t name type) := by
  refine ⟨d.name, d.saved, d.lines, ?_⟩
  show f.localSize + t.typeSize type = _
  rw [d.localSize, Episode.localSize, Episode.localSize, List.map_append, List.sum_append]
  simp

theorem cache (d : p.Describes t f) (name : Text) (v : Value) :
    Episode.Describes t p (f.cache name v) :=
  ⟨d.name, d.saved, d.lines, d.localSize⟩

/-- The code that is written at the end completes the block of the episode. -/
theorem header_append_code (d : p.Describes t f) : p.header t ++ f.code t = p.block t := by
  simp only [Frame.code, Episode.block, Episode.reservation, d.saved, d.lines, d.localSize,
    Routine.leave, List.append_assoc]

end Episode.Describes

namespace Chronicle.Describes

variable {h : Chronicle} {e : Engine}

/-- Agreement speaks of the code and the functions only. -/
theorem of_sameCode (d : h.Describes e) {e' : Engine} (ht : e'.target = e.target)
    (hf : e'.funcs = e.funcs) (hb : e'.builtins = e.builtins) (hc : e'.current = e.current)
    (he : e'.ended = e.ended) : h.Describes e' := by
  refine ⟨?_, ?_, ?_, ?_⟩
  · rw [hf, ht]; exact d.funcs
  · rw [hb, ht]; exact d.builtins
  · rw [hc, ht]; exact d.current
  · rw [he]; exact d.ended

/-- Either no function is open, or the episode that is open describes the frame. -/
theorem open_cases (d : h.Describes e) :
    (h.opened = none ∧ e.current = none) ∨
      ∃ p f, h.opened = some p ∧ e.current = some f ∧ p.Describes e.target f := by
  have hrel := d.current
  generalize h.opened = o at hrel ⊢
  generalize e.current = c at hrel ⊢
  cases hrel with
  | none => exact .inl ⟨rfl, rfl⟩
  | some hpf => exact .inr ⟨_, _, rfl, rfl, hpf⟩

/-- A change inside the open function that its episode follows. -/
theorem mapCurrent (d : h.Describes e) {g : Episode → Episode} {k : Frame → Frame}
    (hname : ∀ p, (g p).name = p.name)
    (hstep : ∀ p f, p.Describes e.target f → (g p).Describes e.target (k f)) :
    (h.mapOpened g).Describes (e.mapCurrent k) := by
  have hheader : ∀ p, Episode.header e.target (g p) = Episode.header e.target p := by
    intro p
    rw [Episode.header, Episode.header, hname]
  have hfuncs := d.funcs
  refine ⟨?_, d.builtins, ?_, d.ended⟩
  · show e.funcs = h.closed.flatMap (Episode.block e.target) ++
      ((h.opened.map g).map (Episode.header e.target)).getD []
    rw [hfuncs]
    cases h.opened with
    | none => rfl
    | some p => rw [Option.map_some, Option.map_some, Option.map_some, hheader]
  · show Option.Rel (Episode.Describes e.target) (h.opened.map g) (e.current.map k)
    obtain ⟨ho, hc⟩ | ⟨p, f, ho, hc, hpf⟩ := d.open_cases
    · rw [ho, hc]; exact .none
    · rw [ho, hc]; exact .some (hstep p f hpf)

theorem addLine (d : h.Describes e) (l : Line) :
    (h.mapOpened fun p => { p with emitted := p.emitted ++ [l] }).Describes (e.addLine l) := by
  obtain ⟨ho, hc⟩ | ⟨p, f, ho, hc, hpf⟩ := d.open_cases
  · have he : e.addLine l = { e with text := e.text ++ [l] } := by rw [Engine.addLine, hc]
    rw [mapOpened_of_none ho, he]
    exact d.of_sameCode rfl rfl rfl rfl rfl
  · have he : e.addLine l = e.mapCurrent (·.addLine l) := by
      rw [Engine.addLine, Engine.mapCurrent, hc]
      rfl
    rw [he]
    exact d.mapCurrent (fun _ => rfl) fun _ _ hpf => hpf.addLine l

theorem take (d : h.Describes e) (c : RegClass) : (h.note e (.take c)).Describes (e.take c) := by
  -- Only a fresh register is clobbered: a permissive engine without a free one hands out a
  -- register that is in use, and the frame is left alone.
  cases hfree : e.regs.firstFree? c with
  | none =>
    have hnote : h.note e (.take c) = h := by
      cases c <;> simp [note, freshInt?, hfree, mapOpened]
    rw [hnote, Engine.take]
    cases ha : e.regs.alloc? c with
    | none => exact d
    | some ag =>
      obtain ⟨a, g⟩ := ag
      obtain ⟨hfresh, rfl⟩ := RegisterFile.alloc?_of_full hfree ha
      simpa [hfresh] using d
  | some r =>
    rw [Engine.take, RegisterFile.alloc?_of_firstFree? hfree]
    cases c with
    | float =>
      have hnote : h.note e (.take .float) = h := by simp [note, freshInt?, mapOpened]
      rw [hnote]
      exact d.of_sameCode rfl rfl rfl rfl rfl
    | int =>
      have hnote : h.note e (.take .int) =
          h.mapOpened fun p => { p with taken := p.taken ++ [r] } := by
        simp [note, freshInt?, hfree]
      rw [hnote]
      have d' : h.Describes { e with
          regs := e.regs.setInUse .int (e.regs.inUse .int ++ [r]) } :=
        d.of_sameCode rfl rfl rfl rfl rfl
      exact d'.mapCurrent (fun _ => rfl) fun _ _ hpf => hpf.noteClobber r

theorem enter (d : h.Describes e) (name : Text) (params : List Param) :
    (h.note e (.enter name params)).Describes (e.enter name params) := by
  obtain ⟨ho, hc⟩ | ⟨p, f, ho, hc, hpf⟩ := d.open_cases
  · rw [note, ho, Option.getD_none, Engine.enter, hc]
    refine ⟨?_, d.builtins, .some (.new e.target e.nextId name params), d.ended⟩
    show e.funcs ++ Routine.enter e.target name = _
    rw [d.funcs, ho]
    simp [Routine.enter, Episode.header, Episode.new]
  · have hnote : h.note e (.enter name params) = h := by
      rw [note, ho, Option.getD_some, ← ho]
    rw [hnote, Engine.enter, hc]
    exact d

theorem leave (d : h.Describes e) : (h.note e .leave).Describes e.leave := by
  obtain ⟨ho, hc⟩ | ⟨p, f, ho, hc, hpf⟩ := d.open_cases
  · have hnote : h.note e .leave = h := by
      rw [note, ho, Option.toList_none, List.append_nil, ← ho]
    rw [hnote, Engine.leave, hc]
    exact d
  · rw [note, ho, Option.toList_some, Engine.leave, hc]
    refine ⟨?_, d.builtins, .none, ?_⟩
    · show e.funcs ++ f.code e.target =
        (h.closed ++ [p]).flatMap (Episode.block e.target) ++ []
      rw [d.funcs, ho, List.flatMap_append, List.flatMap_singleton, ← hpf.header_append_code]
      simp
    · show (e.ended ++ [f]).map (·.saved) = (h.closed ++ [p]).map Episode.saves
      rw [List.map_append, List.map_append, d.ended, List.map_singleton, List.map_singleton,
        hpf.saved]

theorem make (d : h.Describes e) (m : Move) : (h.note e m).Describes (e.make m) := by
  cases m with
  | instr i => exact d.addLine (.instr i)
  | raw t => exact d.addLine (.raw t)
  | take c => exact d.take c
  | enter name params => exact d.enter name params
  | leave => exact d.leave
  | addLocal name type =>
    exact d.mapCurrent (fun _ => rfl) fun _ _ hpf => hpf.addLocal name type
  | cache name v =>
    -- The frame changes, and its episode does not have to.
    have hid : h.mapOpened id = h := by simp [mapOpened]
    have d' := d.mapCurrent (g := id) (k := (·.cache name v)) (fun _ => rfl)
      fun _ _ hpf => hpf.cache name v
    rw [hid] at d'
    exact d'
  | define name =>
    show h.Describes (e.addSymbol name)
    rw [Engine.addSymbol]
    split
    · exact d
    · exact d.of_sameCode rfl rfl rfl rfl rfl
  | link b =>
    have hb : e.builtins ++ b.code e.target =
        (h.linked ++ [b]).flatMap (Builtin.code e.target) := by
      rw [d.builtins, List.flatMap_append, List.flatMap_singleton]
    cases b <;> exact ⟨d.funcs, hb, d.current, d.ended⟩
  | reserve | store | countLiteral | countPrint | give | resetRegs | log =>
    exact d.of_sameCode rfl rfl rfl rfl rfl

theorem makeAll (d : h.Describes e) (ms : List Move) :
    (h.noteAll e ms).Describes (e.makeAll ms) := by
  induction ms generalizing h e with
  | nil => exact d
  | cons m ms ih => exact ih (d.make m)

theorem addRequest (d : h.Describes e) (q : Request) : (h.addRequest q).Describes e := by
  have d' := d.mapCurrent (g := fun p => { p with requests := p.requests ++ [q] }) (k := id)
    (fun _ => rfl) fun _ _ hpf => ⟨hpf.name, hpf.saved, hpf.lines, hpf.localSize⟩
  have hid : e.mapCurrent id = e := by simp [Engine.mapCurrent]
  rw [hid] at d'
  exact d'

theorem ask (d : h.Describes e) (q : Request) : (h.ask e q).Describes (e.serve q) :=
  (d.addRequest q).makeAll (e.movesOf q)

theorem follow (d : h.Describes e) (qs : List Request) :
    (h.follow e qs).Describes (e.serveAll qs) := by
  induction qs generalizing h e with
  | nil => exact d
  | cons q qs ih => exact ih (d.ask q)

end Chronicle.Describes

theorem Chronicle.describes_of (t : Target) (strict : Bool) (qs : List Request) :
    (Chronicle.of t strict qs).Describes ((Engine.new t strict).serveAll qs) := by
  have d : Chronicle.empty.Describes (Engine.new t strict) := ⟨rfl, rfl, .none, rfl⟩
  exact d.follow qs

/-! ## Labels -/

/-- A body holds no label: there is no move that puts one into a function. -/
def Episode.LabelFree (p : Episode) : Prop := ∀ name, Line.label name ∉ p.emitted

namespace Chronicle

def LabelFree (h : Chronicle) : Prop := ∀ p ∈ h.closed ++ h.opened.toList, p.LabelFree

namespace LabelFree

variable {h : Chronicle}

theorem mapOpened (hl : h.LabelFree) {f : Episode → Episode}
    (hf : ∀ p, p.LabelFree → (f p).LabelFree) : (h.mapOpened f).LabelFree := by
  intro p hp
  rcases List.mem_append.mp hp with hp | hp
  · exact hl p (List.mem_append_left _ hp)
  · cases ho : h.opened with
    | none => simp [Chronicle.mapOpened, ho] at hp
    | some q =>
      have hpq : p = f q := by simpa [Chronicle.mapOpened, ho, eq_comm] using hp
      rw [hpq]
      exact hf q (hl q (by simp [ho]))

theorem addLine (hl : h.LabelFree) {l : Line} (hline : ∀ name, Line.label name ≠ l) :
    (h.mapOpened fun p => { p with emitted := p.emitted ++ [l] }).LabelFree := by
  refine hl.mapOpened fun p hp name hmem => ?_
  rcases List.mem_append.mp hmem with hmem | hmem
  · exact hp name hmem
  · exact hline name (List.mem_singleton.mp hmem)

theorem note (hl : h.LabelFree) (e : Engine) (m : Move) : (h.note e m).LabelFree := by
  cases m with
  | instr i => exact hl.addLine fun _ hname => by cases hname
  | raw t => exact hl.addLine fun _ hname => by cases hname
  | take c => exact hl.mapOpened fun _ hp => hp
  | addLocal name type => exact hl.mapOpened fun _ hp => hp
  | enter name params =>
    intro p hp
    cases ho : h.opened with
    | some q => exact hl p (by simpa [Chronicle.note, ho] using hp)
    | none =>
      rcases List.mem_append.mp hp with hp | hp
      · exact hl p (List.mem_append_left _ hp)
      · have hnew : p = .new name := by simpa [Chronicle.note, ho, eq_comm] using hp
        rw [hnew]
        intro label hmem
        cases hmem
  | leave => exact fun p hp => hl p (by simpa [Chronicle.note] using hp)
  | _ => exact hl

theorem noteAll (hl : h.LabelFree) (e : Engine) (ms : List Move) : (h.noteAll e ms).LabelFree := by
  induction ms generalizing h e with
  | nil => exact hl
  | cons m ms ih => exact ih (hl.note e m) (e.make m)

theorem follow (hl : h.LabelFree) (e : Engine) (qs : List Request) : (h.follow e qs).LabelFree := by
  induction qs generalizing h e with
  | nil => exact hl
  | cons q qs ih =>
    have hq : (h.addRequest q).LabelFree := hl.mapOpened fun _ hp => hp
    exact ih (hq.noteAll e (e.movesOf q)) (e.serve q)

end LabelFree

theorem labelFree_of (t : Target) (strict : Bool) (qs : List Request) :
    (of t strict qs).LabelFree :=
  LabelFree.follow (h := empty) (fun _ hp => by cases hp) (.new t strict) qs

end Chronicle

def Line.isLabel : Line → Bool
  | .label _ => true
  | _ => false

theorem Builtin.one_lt_labels (t : Target) (b : Builtin) :
    1 < ((b.code t).filter Line.isLabel).length := by
  cases t <;> cases b <;> decide

/-- The only label of a block is the name of its function. -/
theorem Episode.LabelFree.labels_block {p : Episode} (hp : p.LabelFree) (t : Target) :
    (p.block t).filter Line.isLabel = [.label p.name] := by
  have hbody : p.emitted.filter Line.isLabel = [] := by
    rw [List.filter_eq_nil_iff]
    intro l hl
    cases l with
    | label name => exact absurd hl (hp name)
    | instr => simp [Line.isLabel]
    | raw => simp [Line.isLabel]
  have hroom : (p.reservation t).filter Line.isLabel = [] := by
    rw [Episode.reservation]
    split <;> rfl
  have hpush : (p.saves.reverse.map fun r => Line.op .push [.reg r]).filter Line.isLabel = [] := by
    simp [List.filter_map, Line.op, Line.isLabel, Function.comp_def]
  have hpop : (p.saves.map fun r => Line.op .pop [.reg r]).filter Line.isLabel = [] := by
    simp [List.filter_map, Line.op, Line.isLabel, Function.comp_def]
  simp only [Episode.block, List.filter_append, hbody, hroom, hpush, hpop, List.append_nil]
  rfl

theorem Episode.LabelFree.not_routine {p : Episode} (hp : p.LabelFree) (t : Target) (b : Builtin) :
    ¬ b.code t <:+: p.block t := by
  -- A routine inside the block would bring more labels than the block has.
  intro hb
  have hlen := (hb.sublist.filter Line.isLabel).length_le
  rw [hp.labels_block t, List.length_singleton] at hlen
  exact absurd (b.one_lt_labels t) (Nat.not_lt.mpr hlen)

/-! ## The function segment -/

/-- After every run of requests, refused ones included, the function segment is the blocks
of the functions that ended, and the header of the one that is open.  A block saves and
restores exactly the integer registers that were freshly handed out in it, each once, and
no routine of the runtime stands in it. -/
theorem Engine.funcs_eq_blocks (t : Target) (strict : Bool) (qs : List Request) :
    let e := (Engine.new t strict).serveAll qs
    let h := Chronicle.of t strict qs
    e.funcs = h.closed.flatMap (Episode.block t) ++ (h.opened.map (Episode.header t)).getD [] ∧
      e.current.map (·.name) = h.opened.map (·.name) ∧
      e.ended.map (·.saved) = h.closed.map Episode.saves ∧
      (∀ p ∈ h.closed, p.saves.Nodup ∧ (∀ r, r ∈ p.saves ↔ r ∈ p.taken) ∧
        ∀ b : Builtin, ¬ b.code t <:+: p.block t) ∧
      e.builtins = h.linked.flatMap (Builtin.code t) := by
  intro e h
  have d : h.Describes e := Chronicle.describes_of t strict qs
  have ht : e.target = t := Engine.serveAll_target (.new t strict) qs
  refine ⟨ht ▸ d.funcs, ?_, d.ended, fun p hp => ?_, ht ▸ d.builtins⟩
  · obtain ⟨ho, hc⟩ | ⟨p, f, ho, hc, hpf⟩ := d.open_cases
    · rw [ho, hc]; rfl
    · rw [ho, hc, Option.map_some, Option.map_some, hpf.name]
  · have hfree : p.LabelFree := Chronicle.labelFree_of t strict qs p (List.mem_append_left _ hp)
    exact ⟨nodup_eraseDups p.taken, mem_eraseDups p.taken, hfree.not_routine t⟩

end Assembly
