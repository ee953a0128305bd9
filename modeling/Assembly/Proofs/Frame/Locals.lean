import Assembly.Proofs.Engine.Atomic
import Assembly.Proofs.Engine.Confined
import Assembly.Proofs.Frame.Depth
import Assembly.Proofs.Frame.Room
import Assembly.Proofs.Machine.Width

/-!
# Where the locals of a function are

Each local that is declared in a function is put below the ones before it.  So the locals lie
one below the other, from the base pointer on, with no gap and no overlap.  The room for them is
reserved when the function ends, in front of the saves of its registers.

`stacked_serveAll` says so for the slots of a run, and `Chronicle.tells_of` finds the code of a
function that ended.
-/

namespace Assembly

open Move Emit

namespace Engine

variable {e : Engine}

/-! ## Declarations -/

/-- The slot that the request declares in the function, if it is granted. -/
def declared? (e : Engine) (id : Nat) : Request → Option Value
  | .declareLocal f name type =>
    match e.reply (.declareLocal f name type) with
    | .ok (.value v) => if f.id = id then some v else none
    | _ => none
  | _ => none

/-- The slots that a run declares in the function. -/
def slots (e : Engine) (id : Nat) : List Request → List Value
  | [] => []
  | q :: qs => (e.declared? id q).toList ++ (e.serve q).slots id qs

/-- A local lies below the locals before it, and the function is larger by its size. -/
theorem serve_declareLocal (hn : e.Numbered) {f : FunctionRef} {name type : Text} {r : Reply}
    (hr : e.reply (.declareLocal f name type) = .ok r) :
    r = .value (.ofSlot name type e.target.basePointer (e.room f.id + e.target.typeSize type : Nat)) ∧
      ∀ id, (e.serve (.declareLocal f name type)).room id =
        e.room id + if f.id = id then e.target.typeSize type else 0 := by
  have hgrants : (Request.declareLocal f name type).emit.Grants e r
    (e.movesOf (.declareLocal f name type)) := Prod.ext hr rfl
  obtain ⟨v, hv, rfl⟩ := grants_map.mp hgrants
  rw [serve]
  generalize e.movesOf (.declareLocal f name type) = ms at hv
  rw [declareLocal, grants_bind] at hv
  obtain ⟨g, _, hg, ms₂, hv, rfl⟩ := hv
  obtain ⟨rfl, hc, hid⟩ := openFrame_granted hg
  rw [makeAll_nil, grants_bind] at hv
  obtain ⟨_, checks, hchecks, ms₃, hv, rfl⟩ := hv
  simp only [move, grants_read_bind, grants_ite, grants_throw_bind, grants_moves_bind, grants_pure,
    if_false_left] at hv
  obtain ⟨-, _, ⟨rfl, rfl⟩, rfl⟩ := hv
  have hms : checks = (checkType type e).2 := by rw [hchecks]
  have hslotless : ∀ m ∈ checks, m.isLocal = false := hms ▸ Slotless.checkType type e
  have hinner : ∀ m ∈ checks, m.inner := hms ▸ (Confined.checkType type e).1
  refine ⟨?_, fun id => ?_⟩
  · rw [Frame.nextSlot, makeAll_target, ← hid, room_of_current hn hc]
  · rw [List.nil_append, makeAll_append, List.append_nil, makeAll_cons, makeAll_nil,
      room_make (hn.makeAll checks), room_makeAll_of_slotless hn hslotless, id_makeAll hinner, hc,
      makeAll_target, Option.map_some, hid]
    simp only [Option.some.injEq]
    rfl

end Engine

/-! ## Slots below each other -/

/-- Slots that lie below each other without a gap, from one depth below the base pointer to
another. -/
inductive Stacked (t : Target) : Nat → List Value → Nat → Prop
  | nil (n : Nat) : Stacked t n [] n
  | cons (name type : Text) {n m : Nat} {vs : List Value} (h : Stacked t (n + t.typeSize type) vs m) :
    Stacked t n (.ofSlot name type t.basePointer (n + t.typeSize type : Nat) :: vs) m

/-- The bytes from an address on, up to another one. -/
structure Stretch where
  start : Int
  stop : Int
deriving DecidableEq, Repr

namespace Stretch

def Has (s : Stretch) (a : Int) : Prop := s.start ≤ a ∧ a < s.stop

def Disjoint (s s' : Stretch) : Prop := ∀ a, ¬(s.Has a ∧ s'.Has a)

def Inside (s s' : Stretch) : Prop := ∀ a, s.Has a → s'.Has a

end Stretch

/-- The bytes of a slot, by the base pointer of its function. -/
def Value.bytes (t : Target) (bp : Int) (v : Value) : Stretch :=
  ⟨bp - v.offset, bp - v.offset + t.typeSize v.type⟩

theorem Target.typeSize_pos (t : Target) (type : Text) : 0 < t.typeSize type := by
  rcases t.typeSize_cases type with h | h | h | h <;> omega

namespace Stacked

variable {t : Target} {n m k : Nat} {vs ws : List Value}

theorem append (h : Stacked t n vs m) (h' : Stacked t m ws k) : Stacked t n (vs ++ ws) k := by
  induction h with
  | nil => exact h'
  | cons name type _ ih => exact .cons name type (ih h')

theorem eq_sum (h : Stacked t n vs m) : m = n + (vs.map fun v => t.typeSize v.type).sum := by
  induction h with
  | nil => rfl
  | cons name type _ ih =>
    rw [ih, List.map_cons, List.sum_cons, Nat.add_assoc]
    rfl

theorem offset_getLast? (h : Stacked t n vs m) : vs.getLast?.elim (n : Int) (·.offset) = m := by
  induction h with
  | nil => rfl
  | @cons name type n m vs _ ih =>
    cases vs with
    | nil => exact ih
    | cons v vs =>
      rw [List.getLast?_cons_cons]
      rw [List.getLast?_cons] at ih ⊢
      exact ih

theorem le_offset (h : Stacked t n vs m) {v : Value} (hv : v ∈ vs) :
    n + t.typeSize v.type ≤ v.offset ∧ v.offset ≤ m := by
  induction h with
  | nil => cases hv
  | @cons name type n m vs hrest ih =>
    have hsum := hrest.eq_sum
    rcases List.mem_cons.mp hv with rfl | hv
    · simp only [Value.ofSlot]
      omega
    · have hle := ih hv
      omega

theorem pairwise (h : Stacked t n vs m) :
    vs.Pairwise fun v w : Value => v.offset + t.typeSize w.type ≤ w.offset := by
  induction h with
  | nil => exact .nil
  | cons name type hrest ih => exact .cons (fun w hw => (hrest.le_offset hw).1) ih

end Stacked

theorem Engine.stacked_serve {e : Engine} (hn : e.Numbered) (id : Nat) (q : Request) :
    Stacked e.target (e.room id) (e.declared? id q).toList ((e.serve q).room id) := by
  by_cases hq : ∃ f name type, q = .declareLocal f name type
  · obtain ⟨f, name, type, rfl⟩ := hq
    cases hr : e.reply (.declareLocal f name type) with
    | error x =>
      have hrefused : (Request.declareLocal f name type).emit.Refuses e x
        (e.movesOf (.declareLocal f name type)) := Prod.ext hr rfl
      simp only [declared?, hr]
      rw [serve, declareLocal_refused (refuses_map.mp hrefused)]
      exact .nil _
    | ok r =>
      obtain ⟨rfl, hroom⟩ := serve_declareLocal hn hr
      simp only [declared?, hr]
      rw [hroom]
      by_cases hid : f.id = id
      · rw [if_pos hid, if_pos hid, hid]
        exact .cons name type (.nil _)
      · rw [if_neg hid, if_neg hid]
        exact .nil _
  · have hother : ∀ f name type, q ≠ .declareLocal f name type :=
      fun f name type h => hq ⟨f, name, type, h⟩
    have hnone : e.declared? id q = none := by
      cases q with
      | declareLocal f name type => exact absurd rfl (hother f name type)
      | _ => rfl
    have hroom : (e.serve q).room id = e.room id :=
      room_makeAll_of_slotless hn (Slotless.request hother e) id
    rw [hnone, hroom]
    exact .nil _

theorem Engine.stacked_serveAll {e : Engine} (hn : e.Numbered) (id : Nat) (qs : List Request) :
    Stacked e.target (e.room id) (e.slots id qs) ((e.serveAll qs).room id) := by
  induction qs generalizing e with
  | nil => exact .nil _
  | cons q qs ih =>
    have hrest := ih (hn.makeAll (e.movesOf q))
    rw [makeAll_target] at hrest
    exact (stacked_serve hn id q).append hrest

/-! ## The code of a function -/

namespace Frame

/-- The room for the locals; a function without locals reserves none. -/
def reservation (t : Target) (f : Frame) : List Line :=
  if 0 < f.localSize then [.op .sub [.reg t.stackPointer, .num f.localSize]] else []

/-- The saves of the registers, in the reverse order of first use. -/
def saves (f : Frame) : List Line := f.saved.reverse.map fun r => .op .push [.reg r]

end Frame

/-- Each function that ended is one of the chronicle. -/
def Chronicle.Tells (h : Chronicle) (e : Engine) : Prop :=
  ∀ g ∈ e.ended, ∃ p ∈ h.closed, p.Describes e.target g

namespace Chronicle.Tells

variable {h : Chronicle} {e : Engine}

theorem make (hs : h.Tells e) (d : h.Describes e) (m : Move) : (h.note e m).Tells (e.make m) := by
  have hsame : (h.note e m).closed = h.closed → (e.make m).ended = e.ended →
      (h.note e m).Tells (e.make m) := by
    intro hclosed hended
    rw [Tells, hclosed, hended, (e.make_fixed m).1]
    exact hs
  by_cases hm : m.inner = true
  · refine hsame ?_ (e.make_inner hm).1
    cases m with
    | leave => cases hm
    | _ => rfl
  cases m with
  | enter name params =>
    refine hsame rfl ?_
    rw [Engine.make, Engine.enter]
    split <;> rfl
  | leave =>
    obtain ⟨ho, hc⟩ | ⟨p, f, ho, hc, hpf⟩ := d.open_cases
    · exact hsame (by simp [note, ho]) (by rw [Engine.make, Engine.leave, hc])
    · have hended : (e.make .leave).ended = e.ended ++ [f] := by rw [Engine.make, Engine.leave, hc]
      have hclosed : (h.note e .leave).closed = h.closed ++ [p] := by simp [note, ho]
      rw [Tells, hended, hclosed, (e.make_fixed .leave).1]
      intro g hg
      rcases List.mem_append.mp hg with hg | hg
      · obtain ⟨p', hp', hd⟩ := hs g hg
        exact ⟨p', List.mem_append_left _ hp', hd⟩
      · rw [List.mem_singleton.mp hg]
        exact ⟨p, List.mem_append_right _ List.mem_cons_self, hpf⟩
  | _ => exact absurd rfl hm

theorem makeAll (hs : h.Tells e) (d : h.Describes e) (ms : List Move) :
    (h.noteAll e ms).Tells (e.makeAll ms) := by
  induction ms generalizing h e with
  | nil => exact hs
  | cons m ms ih => exact ih (hs.make d m) (d.make m)

theorem follow (hs : h.Tells e) (d : h.Describes e) (qs : List Request) :
    (h.follow e qs).Tells (e.serveAll qs) := by
  induction qs generalizing h e with
  | nil => exact hs
  | cons q qs ih =>
    have hq : (h.addRequest q).Tells e := hs
    exact ih (hq.makeAll (d.addRequest q) (e.movesOf q)) (d.ask q)

end Chronicle.Tells

theorem Chronicle.tells_of (t : Target) (strict : Bool) (qs : List Request) :
    (Chronicle.of t strict qs).Tells ((Engine.new t strict).serveAll qs) :=
  Tells.follow (fun _ hg => by cases hg) (Chronicle.describes_of t strict []) qs

theorem Chronicle.Describes.block_in_funcs {h : Chronicle} {e : Engine} (d : h.Describes e)
    {p : Episode} (hp : p ∈ h.closed) :
    ∃ before after, e.funcs = before ++ p.block e.target ++ after := by
  obtain ⟨ps, ps', hclosed⟩ := List.append_of_mem hp
  refine ⟨ps.flatMap (Episode.block e.target), ps'.flatMap (Episode.block e.target) ++
    (h.opened.map (Episode.header e.target)).getD [], ?_⟩
  rw [d.funcs, hclosed, List.flatMap_append, List.flatMap_cons]
  simp only [List.append_assoc]

namespace Episode.Describes

variable {t : Target} {p : Episode} {g : Frame}

theorem reservation (d : p.Describes t g) : g.reservation t = p.reservation t := by
  rw [Frame.reservation, Episode.reservation, d.localSize]

theorem saves (d : p.Describes t g) :
    g.saves = p.saves.reverse.map fun r => Line.op .push [.reg r] := by
  rw [Frame.saves, d.saved]

theorem block_eq (d : p.Describes t g) : p.block t =
    Routine.enter t g.name ++ g.reservation t ++ g.saves ++ p.emitted ++
      g.saved.map (fun r => Line.op .pop [.reg r]) ++ Routine.leave t := by
  rw [d.reservation, d.saves, d.saved, d.name]
  rfl

theorem localSize_le_depth (d : p.Describes t g) {front rest : List Line} {r : Text}
    (h : g.reservation t ++ g.saves = front ++ Line.op .push [.reg r] :: rest) :
    (g.localSize : Int) ≤ depth t front := by
  have hroom : 0 + depth t (g.reservation t) = g.localSize := by
    rw [d.reservation, p.climbs_reservation.depth_eq, d.localSize]
  have hbelow : ∀ part, part <+: g.saves → 0 ≤ 0 + depth t part := by
    intro part hpart
    rw [d.saves] at hpart
    exact (Climbs.pushes p.saves.reverse (Int.le_refl 0)).floor hpart
  have hlong : ∃ part, front = g.reservation t ++ part ∧ part <+: g.saves := by
    rcases List.append_eq_append_iff.mp h with ⟨part, hfront, hsaves⟩ | ⟨part, hfront, hsaves⟩
    · exact ⟨part, hfront, _, hsaves.symm⟩
    · -- The room is reserved by another instruction, so no save stands in it.
      cases part with
      | nil => exact ⟨[], by simp [hfront], List.nil_prefix⟩
      | cons l part =>
        obtain ⟨hl, -⟩ := List.cons.inj hsaves
        have hmem : Line.op .push [.reg r] ∈ g.reservation t := by rw [hfront, hl]; simp
        rw [Frame.reservation] at hmem
        split at hmem
        · cases List.mem_singleton.mp hmem
        · cases hmem
  obtain ⟨part, rfl, hpart⟩ := hlong
  have hpart := hbelow part hpart
  rw [depth, List.map_append, List.sum_append]
  rw [depth] at hroom hpart
  omega

end Episode.Describes

/-! ## Locals do not overlap -/

theorem Stacked.disjoint {t : Target} {n m : Nat} {vs : List Value} (h : Stacked t n vs m) (bp : Int) :
    vs.Pairwise fun v w => (v.bytes t bp).Disjoint (w.bytes t bp) := by
  refine h.pairwise.imp fun {v w} hle a ha => ?_
  obtain ⟨⟨hv, -⟩, -, hw⟩ := ha
  simp only [Value.bytes] at hv hw
  omega

theorem Stacked.inside {t : Target} {m : Nat} {vs : List Value} (h : Stacked t 0 vs m) (bp : Int)
    {v : Value} (hv : v ∈ vs) : (v.bytes t bp).Inside ⟨bp - m, bp⟩ := by
  rintro a ⟨hstart, hstop⟩
  obtain ⟨hlow, hhigh⟩ := h.le_offset hv
  simp only [Value.bytes] at hstart hstop
  exact ⟨by dsimp only; omega, by dsimp only; omega⟩

namespace Engine

variable (t : Target) (strict : Bool)

theorem stacked_new (id : Nat) (qs : List Request) : Stacked t 0 ((Engine.new t strict).slots id qs)
    (((Engine.new t strict).serveAll qs).room id) :=
  stacked_serveAll (Numbered.new t strict) id qs

/-- A local that is granted lies by its own size below the last one of its function. -/
theorem slot_below_last {f : FunctionRef} {name type : Text} {pre : List Request} {v : Value}
    (hr : ((Engine.new t strict).serveAll pre).reply (.declareLocal f name type) = .ok (.value v)) :
    let last := ((Engine.new t strict).slots f.id pre).getLast?.elim 0 (·.offset)
    v = .ofSlot name type t.basePointer (last + t.typeSize type) ∧ last < v.offset := by
  intro last
  have hlast : last = ((Engine.new t strict).serveAll pre).room f.id :=
    (stacked_new t strict f.id pre).offset_getLast?
  have hpos := t.typeSize_pos type
  have htarget : ((Engine.new t strict).serveAll pre).target = t := serveAll_target _ _
  obtain ⟨hv, -⟩ := serve_declareLocal ((Numbered.new t strict).serveAll pre) hr
  rw [htarget, Int.natCast_add, ← hlast] at hv
  cases hv
  refine ⟨rfl, ?_⟩
  simp only [Value.ofSlot]
  omega

/-- **Locals.**  Each local lies by its own size below the one before it.  The locals of a
function do not overlap, they fill the room that is reserved for them, which the code of the
function reserves first, and the registers that are saved after that lie below them. -/
theorem locals_disjoint (qs : List Request) (id : Nat) (g : Frame)
    (h : ((Engine.new t strict).serveAll qs).frame? id = some g) :
    let e := (Engine.new t strict).serveAll qs
    let slots := (Engine.new t strict).slots id qs
    (∀ pre f name type post v, qs = pre ++ .declareLocal f name type :: post → f.id = id →
      ((Engine.new t strict).serveAll pre).reply (.declareLocal f name type) = .ok (.value v) →
      let last := ((Engine.new t strict).slots id pre).getLast?.elim 0 (·.offset)
      v = .ofSlot name type t.basePointer (last + t.typeSize type) ∧ last < v.offset) ∧
    (∀ bp, slots.Pairwise fun v w => (v.bytes t bp).Disjoint (w.bytes t bp)) ∧
    (∀ bp, ∀ v ∈ slots, (v.bytes t bp).Inside ⟨bp - g.localSize, bp⟩) ∧
    g.localSize = (slots.map fun v => t.typeSize v.type).sum ∧
    (g ∈ e.ended →
      (∃ before body after, e.funcs = before ++ (Routine.enter t g.name ++ g.reservation t ++
        g.saves ++ body ++ g.saved.map (fun r => Line.op .pop [.reg r]) ++ Routine.leave t) ++ after) ∧
      ∀ front r rest, g.reservation t ++ g.saves = front ++ Line.op .push [.reg r] :: rest →
        ∀ bp, ∀ v ∈ slots, (v.bytes t bp).Disjoint
          ⟨bp - depth t front - t.wordSize, bp - depth t front⟩) := by
  intro e slots
  have htarget : e.target = t := serveAll_target _ _
  have hroom : e.room id = g.localSize := room_of_frame? ((Numbered.new t strict).serveAll qs) h
  have hall : Stacked t 0 slots g.localSize := hroom ▸ stacked_new t strict id qs
  refine ⟨?_, hall.disjoint, fun bp v hv => hall.inside bp hv, ?_, fun hg => ?_⟩
  · rintro pre f name type post v - rfl hr
    exact slot_below_last t strict hr
  · rw [hall.eq_sum, Nat.zero_add]
  · obtain ⟨p, hp, d⟩ := Chronicle.tells_of t strict qs g hg
    rw [htarget] at d
    refine ⟨?_, fun front r rest hfront bp v hv => ?_⟩
    · obtain ⟨before, after, hfuncs⟩ := (Chronicle.describes_of t strict qs).block_in_funcs hp
      rw [htarget, d.block_eq] at hfuncs
      exact ⟨before, p.emitted, after, hfuncs⟩
    · have hdeep := d.localSize_le_depth hfront
      rintro a ⟨hlocal, -, hsave⟩
      have hroom := (hall.inside bp hv a hlocal).1
      dsimp only at hroom hsave
      omega

/-- A function with locals of an unknown type and of one name, and a register in use between
them. -/
theorem locals_disjoint_mixed :
    let qs : List Request :=
      [.beginFunction "f" [], .declareLocal ⟨0, "f"⟩ "x" "int8", .alloc "int16",
        .declareLocal ⟨0, "f"⟩ "y" "blob", .declareLocal ⟨0, "f"⟩ "x" "double", .endFunction ⟨0, "f"⟩,
        .declareLocal ⟨0, "f"⟩ "z" "int8"]
    let e := (Engine.new .bits16 false).serveAll qs
    let slots := (Engine.new .bits16 false).slots 0 qs
    slots.map (·.offset) = [1, 3, 11] ∧ ∃ g, e.frame? 0 = some g ∧ g ∈ e.ended ∧ g.localSize = 11 ∧
      g.saved ≠ [] ∧
      (∀ bp, slots.Pairwise fun v w => (v.bytes .bits16 bp).Disjoint (w.bytes .bits16 bp)) ∧
      ∀ front r rest, g.reservation .bits16 ++ g.saves = front ++ Line.op .push [.reg r] :: rest →
        ∀ bp, ∀ v ∈ slots, (v.bytes .bits16 bp).Disjoint
          ⟨bp - depth .bits16 front - 2, bp - depth .bits16 front⟩ := by
  intro qs e slots
  obtain ⟨g, hframe⟩ := Option.isSome_iff_exists.mp (by decide +kernel : (e.frame? 0).isSome)
  have hfacts : (e.frame? 0).all fun g => g ∈ e.ended ∧ g.localSize = 11 ∧ g.saved ≠ [] := by
    decide +kernel
  rw [hframe] at hfacts
  obtain ⟨hended, hsize, hsaved⟩ := of_decide_eq_true hfacts
  obtain ⟨-, hdisjoint, -, -, hcode⟩ := locals_disjoint .bits16 false qs 0 g hframe
  exact ⟨by decide +kernel, g, hframe, hended, hsize, hsaved, hdisjoint, (hcode hended).2⟩

end Engine

end Assembly
