import Assembly.Proofs.Engine.Part
import Assembly.Proofs.Frame.Footprint

/-!
# The room that a function takes

A function grows by one slot with each local that is declared in it, and by nothing else:
`Slotless.request` says that all other requests add no local, even if they are refused halfway.

`frames_make` says what a move does to the functions of an engine, and `room_make` what it does
to their room.  Functions are numbered as they begin, so a number stands for one function.
-/

namespace Assembly

open Move Emit

/-! ## Moves that add a local -/

namespace Move

def isLocal : Move → Bool
  | addLocal _ _ => true
  | _ => false

/-- The bytes that a move adds to the open function. -/
def reserved (t : Target) : Move → Nat
  | addLocal _ type => t.typeSize type
  | _ => 0

theorem reserved_of_not_isLocal (t : Target) {m : Move} (h : m.isLocal = false) : m.reserved t = 0 := by
  cases m with
  | addLocal => cases h
  | _ => rfl

end Move

namespace Emit

variable {α β : Type}

/-- The operation adds no local, whether it is granted or not. -/
def Slotless (m : Emit α) : Prop := ∀ e, ∀ k ∈ (m e).2, k.isLocal = false

namespace Slotless

theorem bind {m : Emit α} {f : α → Emit β} (hm : m.Slotless) (hf : ∀ a, (f a).Slotless) :
    (m >>= f).Slotless := by
  intro e k hk
  rw [bind_apply] at hk
  cases hr : (m e).1 with
  | error x =>
    rw [hr] at hk
    exact hm e k hk
  | ok a =>
    rw [hr] at hk
    rcases List.mem_append.mp hk with hk | hk
    · exact hm e k hk
    · exact hf a _ k hk

theorem moves {ms : List Move} (h : ∀ k ∈ ms, k.isLocal = false) : (Emit.moves ms).Slotless :=
  fun _ => h

theorem instrs (is : List Instr) : (Emit.instrs is).Slotless := by
  refine moves fun k hk => ?_
  obtain ⟨i, -, rfl⟩ := List.mem_map.mp hk
  rfl

theorem checkType (type : Text) : (Emit.checkType type).Slotless := by
  intro e
  rw [checkType_run]
  split
  · exact List.forall_mem_nil _
  · split
    · exact List.forall_mem_nil _
    · exact List.forall_mem_singleton.mpr rfl

theorem claimSymbol (name : Text) : (Emit.claimSymbol name).Slotless := by
  intro e
  rw [claimSymbol_run]
  split
  · split <;> simp [isLocal]
  · simp [isLocal]

theorem allocRegAs (type : Text) (temp : Bool) : (Emit.allocRegAs type temp).Slotless := by
  intro e
  rw [allocRegAs_run]
  split
  · exact List.forall_mem_nil _
  · split <;> simp [isLocal]

theorem release (v : Value) : (Emit.release v).Slotless := by
  intro e
  rw [release_run]
  dsimp only
  split <;> simp [isLocal]

theorem need (b : Builtin) : (Emit.need b).Slotless := by
  have hjoining : ∀ b, ∀ k ∈ joining b, k.isLocal = false := by
    intro b
    cases b <;> simp [joining, isLocal]
  intro e k hk
  cases b with
  | printInt =>
    rw [need_printInt] at hk
    dsimp only at hk
    split at hk
    · cases hk
    · exact hjoining _ k hk
  | printFloat =>
    rw [need_printFloat] at hk
    dsimp only at hk
    split at hk
    · cases hk
    · rcases List.mem_append.mp hk with hk | hk
      · split at hk
        · cases hk
        · exact hjoining _ k hk
      · exact hjoining _ k hk

theorem part {q : Request} {known : List Text} {m : Emit α} (h : Part q known m) : m.Slotless := by
  induction h with
  | pure | throw => exact fun _ => List.forall_mem_nil _
  | bind _ _ ihm ihf => exact ihm.bind ihf
  | reading _ _ ih => exact fun e => ih e e
  | rewording _ _ ih => exact ih
  | finishing _ v ih =>
    intro e k hk
    rcases List.mem_append.mp hk with hk | hk
    · exact ih e k hk
    · exact release v _ k hk
  | moves h =>
    refine moves fun k hk => ?_
    have hplain := h k hk
    cases k with
    | addLocal => cases hplain
    | _ => rfl
  | instrs is => exact instrs is
  | leave | calls => exact moves (List.forall_mem_singleton.mpr rfl)
  | checkType type => exact checkType type
  | claimSymbol => exact claimSymbol _
  | @keeping _ _ _ k hk =>
    refine moves (List.forall_mem_singleton.mpr ?_)
    cases k with
    | addLocal => cases hk
    | _ => rfl
  | allocRegAs type temp => exact allocRegAs type temp
  | release v => exact release v
  | addLiteral _ directive content _ ih =>
    refine bind (fun e => ?_) ih
    rw [addLiteral_run]
    simp [isLocal]
  | printString s =>
    intro e k hk
    rw [printString_run] at hk
    rcases List.mem_append.mp hk with hk | hk
    · revert k
      simp [isLocal]
    · exact instrs _ e k hk
  | need b _ ih => exact (need b).bind fun _ => ih

theorem openFrame (f : FunctionRef) : (Emit.openFrame f).Slotless := by
  intro e
  rw [openFrame_moves]
  exact List.forall_mem_nil _

theorem beginFunction (name : Text) (params : List Param) :
    (Emit.beginFunction name params).Slotless := by
  have hparams : Part (.beginFunction name params) [] _ := Part.checkParams name params
  have hclaim : (claimFunction name params).Slotless := (claimSymbol name).bind fun _ => part hparams
  have henter : (enterFunction name params).Slotless := by
    intro e
    rw [enterFunction_run]
    simp [isLocal]
  intro e
  rw [beginFunction_run]
  cases e.current with
  | some g => exact List.forall_mem_nil _
  | none => exact hclaim.bind (fun _ => henter) e

theorem request {q : Request} (h : ∀ f name type, q ≠ .declareLocal f name type) :
    q.emit.Slotless := by
  have hpure : ∀ {γ : Type} (c : γ), (Pure.pure c : Emit γ).Slotless :=
    fun _ _ => List.forall_mem_nil _
  cases q.shape with
  | part _ hpart => exact part hpart
  | onFrame f hshift hop =>
    obtain ⟨rest, hop, hpart, -⟩ := hop
    rw [← q.shift_zero, hshift, hop]
    exact (openFrame _).bind fun g => part (hpart g)
  | beginFunction hq =>
    subst hq
    exact (beginFunction _ _).bind fun _ => hpure _
  | declareLocal hq => exact absurd hq (h _ _ _)
  | finalize hq =>
    subst hq
    refine bind (fun e k hk => ?_) fun _ => hpure _
    rw [finalize_run] at hk
    obtain ⟨f, -, rfl⟩ := List.mem_map.mp hk
    rfl

end Slotless

end Emit

/-! ## The functions of an engine -/

namespace Engine

variable {e : Engine} {id : Nat}

/-- The functions that were begun, in the order of their beginnings. -/
def frames (e : Engine) : List Frame := e.ended ++ e.current.toList

/-- The bytes that the locals of a function take so far. -/
def room (e : Engine) (id : Nat) : Nat := e.frames[id]?.elim 0 (·.localSize)

theorem make_inner (e : Engine) {m : Move} (hm : m.inner) : (e.make m).ended = e.ended ∧
    ∃ k : Frame → Frame, (e.make m).current = e.current.map k ∧
      ∀ f, (k f).id = f.id ∧ (k f).localSize = f.localSize + m.reserved e.target := by
  have hline : ∀ l, (e.addLine l).ended = e.ended ∧ (e.addLine l).current = e.current.map (·.addLine l) := by
    intro l
    rw [addLine]
    cases e.current <;> exact ⟨rfl, rfl⟩
  have hsame : ∀ {e' : Engine}, e'.ended = e.ended → e'.current = e.current → m.reserved e.target = 0 →
      e'.ended = e.ended ∧ ∃ k : Frame → Frame, e'.current = e.current.map k ∧
        ∀ f, (k f).id = f.id ∧ (k f).localSize = f.localSize + m.reserved e.target := by
    intro e' hended hcurrent hzero
    exact ⟨hended, fun f => f, by simp [hcurrent], fun f => ⟨rfl, by simp [hzero]⟩⟩
  cases m with
  | enter | leave => cases hm
  | instr i => exact ⟨(hline _).1, _, (hline _).2, fun _ => ⟨rfl, rfl⟩⟩
  | raw t => exact ⟨(hline _).1, _, (hline _).2, fun _ => ⟨rfl, rfl⟩⟩
  | define name =>
    simp only [make, addSymbol]
    split <;> exact hsame rfl rfl rfl
  | link b => cases b <;> exact hsame rfl rfl rfl
  | take c =>
    rw [make_take]
    obtain h | ⟨a, g, -, h | h⟩ := e.take_cases c
    · exact hsame (by rw [h]) (by rw [h]) rfl
    · exact hsame (by rw [h]) (by rw [h]) rfl
    · rw [h]
      refine ⟨rfl, (·.noteClobber a.reg), rfl, fun f => ?_⟩
      simp only [Frame.noteClobber]
      split <;> exact ⟨rfl, rfl⟩
  | addLocal name type => exact ⟨rfl, _, rfl, fun _ => ⟨rfl, rfl⟩⟩
  | cache name v => exact ⟨rfl, _, rfl, fun _ => ⟨rfl, rfl⟩⟩
  | _ => exact hsame rfl rfl rfl

/-- What a move does to the functions: the open one may grow, or a new one is added at the end. -/
theorem frames_make (e : Engine) (m : Move) :
    (∃ k : Frame → Frame, (e.make m).frames = e.ended ++ (e.current.map k).toList ∧
      ∀ f, (k f).id = f.id ∧ (k f).localSize = f.localSize + m.reserved e.target) ∨
    ∃ f : Frame, (e.make m).frames = e.frames ++ [f] ∧ f.id = e.frames.length ∧ f.localSize = 0 ∧
      m.reserved e.target = 0 := by
  by_cases hm : m.inner = true
  · obtain ⟨hended, k, hcurrent, hk⟩ := e.make_inner hm
    exact .inl ⟨k, by rw [frames, hended, hcurrent], hk⟩
  have hsame : ∀ f : Frame, f.id = f.id ∧ f.localSize = f.localSize + 0 := fun _ => ⟨rfl, rfl⟩
  cases m with
  | enter name params =>
    cases hc : e.current with
    | some g => exact .inl ⟨fun f => f, by simp [make, enter, frames, hc], hsame⟩
    | none =>
      refine .inr ⟨.new e.nextId name params, ?_, ?_, rfl, rfl⟩
      · simp [make, enter, frames, hc]
      · simp [Frame.new, nextId, frames, hc]
  | leave =>
    refine .inl ⟨fun f => f, ?_, hsame⟩
    cases hc : e.current <;> simp [make, leave, frames, hc]
  | _ => exact absurd rfl hm

/-- A function is known by the number of functions before it. -/
def Numbered (e : Engine) : Prop := e.frames.map (·.id) = List.range e.frames.length

namespace Numbered

theorem new (t : Target) (strict : Bool) : (Engine.new t strict).Numbered := rfl

theorem make (hn : e.Numbered) (m : Move) : (e.make m).Numbered := by
  rw [Numbered] at hn ⊢
  obtain ⟨k, hframes, hk⟩ | ⟨f, hframes, hid, -⟩ := e.frames_make m
  · have hids : (e.make m).frames.map (·.id) = e.frames.map (·.id) := by
      rw [hframes, frames]
      cases e.current with
      | none => rfl
      | some f => simp [(hk f).1]
    have hlength := congrArg List.length hids
    rw [List.length_map, List.length_map] at hlength
    rw [hids, hlength, hn]
  · rw [hframes, List.map_append, hn, List.map_singleton, hid, List.length_append,
      List.length_singleton, List.range_succ]

theorem makeAll (hn : e.Numbered) (ms : List Move) : (e.makeAll ms).Numbered := by
  induction ms generalizing e with
  | nil => exact hn
  | cons m ms ih => exact ih (hn.make m)

theorem serveAll (hn : e.Numbered) (qs : List Request) : (e.serveAll qs).Numbered := by
  induction qs generalizing e with
  | nil => exact hn
  | cons q qs ih => exact ih (hn.makeAll (e.movesOf q))

theorem id_of_current (hn : e.Numbered) {f : Frame} (hc : e.current = some f) :
    f.id = e.ended.length := by
  rw [Numbered, frames, hc, Option.toList_some, List.length_append, List.length_singleton,
    List.range_succ, List.map_append] at hn
  have hlast := (List.append_inj' hn rfl).2
  simpa using hlast

theorem getElem?_id (hn : e.Numbered) {f : Frame} (hf : f ∈ e.frames) : e.frames[f.id]? = some f := by
  obtain ⟨i, hi⟩ := List.getElem?_of_mem hf
  have hid : (e.frames.map (·.id))[i]? = some f.id := by rw [List.getElem?_map, hi]; rfl
  rw [hn, List.getElem?_eq_some_iff] at hid
  obtain ⟨hlt, hid⟩ := hid
  rw [List.getElem_range] at hid
  rw [← hid, hi]

end Numbered

theorem frame?_mem {f : Frame} (h : e.frame? id = some f) : f ∈ e.frames ∧ f.id = id := by
  have hended : e.ended.find? (·.id = id) = some f → f ∈ e.frames ∧ f.id = id := by
    intro hfind
    have hid := List.find?_some hfind
    exact ⟨List.mem_append_left _ (List.mem_of_find?_eq_some hfind), by simpa using hid⟩
  rw [frame?] at h
  cases hc : e.current with
  | none =>
    rw [hc] at h
    exact hended h
  | some g =>
    rw [hc] at h
    dsimp only at h
    split at h
    case isTrue hid =>
      cases h
      exact ⟨by simp [frames, hc], hid⟩
    case isFalse => exact hended h

/-! ## The room for the locals -/

theorem room_of_frame? (hn : e.Numbered) {f : Frame} (h : e.frame? id = some f) :
    e.room id = f.localSize := by
  obtain ⟨hmem, rfl⟩ := frame?_mem h
  rw [room, hn.getElem?_id hmem]
  rfl

theorem room_of_current (hn : e.Numbered) {f : Frame} (hc : e.current = some f) :
    e.room f.id = f.localSize := by
  rw [room, hn.getElem?_id (by simp [frames, hc])]
  rfl

theorem room_make (hn : e.Numbered) (m : Move) (id : Nat) : (e.make m).room id =
    e.room id + if e.current.map (·.id) = some id then m.reserved e.target else 0 := by
  obtain ⟨k, hframes, hk⟩ | ⟨f, hframes, hid, hsize, hzero⟩ := e.frames_make m
  · rw [room, room, hframes, frames]
    cases hc : e.current with
    | none => rfl
    | some f =>
      -- The open function is the last one.
      have hid := hn.id_of_current hc
      simp only [Option.map_some, Option.toList_some, Option.some.injEq, hid]
      rcases Nat.lt_trichotomy id e.ended.length with hlt | rfl | hgt
      · rw [List.getElem?_append_left hlt, List.getElem?_append_left hlt, if_neg (by omega)]
        rfl
      · rw [List.getElem?_concat_length, List.getElem?_concat_length, if_pos rfl]
        exact (hk f).2
      · rw [List.getElem?_eq_none (by simp; omega), List.getElem?_eq_none (by simp; omega),
          if_neg (by omega)]
        rfl
  · rw [hzero, ite_self, Nat.add_zero, room, room, hframes]
    rcases Nat.lt_trichotomy id e.frames.length with hlt | rfl | hgt
    · rw [List.getElem?_append_left hlt]
    · rw [List.getElem?_concat_length, List.getElem?_eq_none (Nat.le_refl _)]
      exact hsize
    · rw [List.getElem?_eq_none (by simp; omega), List.getElem?_eq_none (by omega)]

theorem room_makeAll_of_slotless (hn : e.Numbered) {ms : List Move}
    (h : ∀ m ∈ ms, m.isLocal = false) (id : Nat) : (e.makeAll ms).room id = e.room id := by
  induction ms generalizing e with
  | nil => rfl
  | cons m ms ih =>
    rw [makeAll_cons, ih (hn.make m) fun k hk => h k (List.mem_cons_of_mem m hk), room_make hn,
      Move.reserved_of_not_isLocal _ (h m List.mem_cons_self), ite_self, Nat.add_zero]

end Engine

end Assembly
