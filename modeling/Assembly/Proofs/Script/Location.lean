import Assembly.Proofs.Engine.Growth
import Assembly.Proofs.Script.Failure

/-!
# Where a script fails

A script that fails does so at one of its items.  The run gets through the items before it, and
what they have made stays in the engine: `emit_fails_at`.  The error is at a position of the item,
and has a cause exactly if the engine refused a request or a number could not be read.

Statements neither begin nor end functions, so what they do only adds to the engine, to the
function that is open included.  That they fail at their own positions is seen on the way:
`Emission.Steady`.
-/

namespace Assembly

namespace Script

/-! ## Positions -/

/-- The positions in a function. -/
def Func.positions (f : Func) : List Pos :=
  f.pos :: (f.params.map (·.pos) ++ f.body.flatMap Stmt.positions)

def Item.positions : Item → List Pos
  | func f => f.positions
  | stmt s => s.positions

/-! ## Statements -/

namespace Emission

variable {α β : Type} {pos : Pos} {ps : List Pos}

/-- However the part of a run ends, everything in the engine is still there, and if it fails it is
at one of the positions. -/
def Steady (m : Emission α) (ps : List Pos) : Prop :=
  ∀ em, em.engine.Extends (m.outcome em).2.engine ∧ ∀ x, m.Fails em x → x.pos ∈ ps

namespace Steady

theorem pure (a : α) : (Pure.pure a : Emission α).Steady ps :=
  fun em => ⟨.refl em.engine, fun _ hx => absurd (fails_pure.1 hx) not_false⟩

theorem fail {f : ScriptFault} (h : pos ∈ ps) : (Emission.fail pos f : Emission α).Steady ps :=
  fun em => ⟨.refl em.engine, fun x hx => by rw [fails_fail.1 hx]; exact h⟩

theorem bind {m : Emission α} {f : α → Emission β} (hm : m.Steady ps)
    (hf : ∀ a, (f a).Steady ps) : (m >>= f).Steady ps := by
  refine fun em => ⟨?_, fun x hx => ?_⟩
  · have hem := (hm em).1
    rw [outcome_bind]
    generalize m.outcome em = ending at hem ⊢
    obtain ⟨x | a, em₁⟩ := ending
    · exact hem
    · exact hem.trans (hf a em₁).1
  · obtain hx | ⟨a, em₁, -, hx⟩ := fails_bind.1 hx
    · exact (hm em).2 x hx
    · exact (hf a em₁).2 x hx

theorem get {f : Emitter → Emission β} (hf : ∀ em, (f em).Steady ps) :
    (MonadState.get >>= f).Steady ps := fun em => hf em em

theorem modifying {f : Emitter → Emitter} (h : ∀ em, (f em).engine = em.engine) :
    (modify f : Emission Unit).Steady ps := by
  refine fun em => ⟨?_, fun _ hx => absurd (fails_modify.1 hx) not_false⟩
  show em.engine.Extends (f em).engine
  rw [h]
  exact .refl em.engine

theorem engine {m : Emit α} (h : pos ∈ ps) (hm : ∀ e, ∀ k ∈ (m e).2, k.inner) :
    (Emission.engine pos m).Steady ps := by
  refine fun em => ⟨em.engine.extends_makeAll (hm em.engine), fun x hx => ?_⟩
  obtain ⟨c, -, rfl⟩ := fails_engine.1 hx
  exact h

theorem part {m : Emission α} (h : Part ps m) : m.Steady ps := by
  induction h with
  | pure a => exact pure a
  | fail h f => exact fail h
  | bind _ _ ihm ihf => exact ihm.bind ihf
  | reading _ _ ih => exact get ih
  | engine h hq hm =>
    exact engine h fun e => hm.moves e ▸ Request.inner_moves (Request.within_of_isInner hq) e

theorem statement {m : Emission Unit} (h : Statement ps m) : m.Steady ps := by
  induction h with
  | part h => exact part h
  | renames h => exact modifying h.engine
  | bind hm _ ih => exact (part hm).bind ih
  | reading _ _ ih => exact get ih

theorem stmt (s : Stmt) : (Emission.stmt s).Steady s.positions := statement (.stmt s)

end Steady

/-! ## Items -/

/-- However the part of a run ends, everything in the segments of the engine is still there. -/
def Growing (m : Emission α) : Prop :=
  ∀ em : Emitter, em.engine.Grown (m.outcome em).2.engine

namespace Growing

theorem bind {m : Emission α} {f : α → Emission β} (hm : m.Growing) (hf : ∀ a, (f a).Growing) :
    (m >>= f).Growing := by
  intro em
  have hem := hm em
  rw [outcome_bind]
  generalize m.outcome em = ending at hem ⊢
  obtain ⟨x | a, em₁⟩ := ending
  · exact hem
  · exact hem.trans (hf a em₁)

theorem get {f : Emitter → Emission β} (hf : ∀ em, (f em).Growing) :
    (MonadState.get >>= f).Growing := fun em => hf em em

theorem setScope (scope : Option Scope) :
    (modify fun em => { em with scope := scope } : Emission Unit).Growing :=
  fun em => .refl em.engine

theorem engine (pos : Pos) (m : Emit α) : (Emission.engine pos m).Growing :=
  fun em => em.engine.grown_makeAll (m em.engine).2

theorem command (cmd : Command) : cmd.emit.Growing := by
  cases cmd with
  | enter f => exact (engine f.pos _).bind fun ref => setScope _
  | stmt s => exact fun em => (Steady.stmt s em).1.toGrown
  | leave f =>
    refine get fun em => ?_
    cases em.scope with
    | none => exact setScope none
    | some s => exact (engine f.pos _).bind fun _ => setScope none

theorem runAll (cs : List Command) : (Script.runAll cs).Growing := by
  induction cs with
  | nil => exact fun em => .refl em.engine
  | cons cmd cs ih => exact (command cmd).bind fun _ => ih

end Growing

theorem item_sameEnd (it : Item) {em : Emitter} (h : em.scope = none) :
    SameEnd ((item it).outcome em) ((Script.runAll it.commands).outcome em) := by
  cases it with
  | func f => exact func_sameEnd f em
  | stmt s => exact stmt_sameEnd s h

/-- What the items before have made stays.  A function of the script is not even begun while one
is open, and its lines are all that a failure can leave behind unfinished. -/
theorem item_extends (it : Item) {em : Emitter} (h : em.scope = none) :
    em.engine.Extends ((item it).outcome em).2.engine := by
  cases it with
  | stmt s => exact (Steady.stmt s em).1
  | func f =>
    cases hcur : em.engine.current with
    | none =>
      refine .of_current_eq_none ?_ hcur
      rw [(item_sameEnd (.func f) h).2.1]
      exact Growing.runAll _ em
    | some g =>
      have hbegin : (engine f.pos (Emit.beginFunction f.name f.signature)).outcome em =
          (.error ⟨.engine (.functionOpen f.name g.name), f.pos, []⟩, em) := by
        have hrefused := Emit.beginFunction_run f.name f.signature em.engine
        rw [hcur] at hrefused
        show ((Emit.beginFunction f.name f.signature em.engine).1.mapError _, _) = _
        rw [hrefused]
        rfl
      show em.engine.Extends ((func f).outcome em).2.engine
      rw [func, outcome_bind, hbegin]
      exact .refl em.engine

end Emission

/-- The positions in a command. -/
def Command.positions : Command → List Pos
  | enter f | leave f => [f.pos]
  | stmt s => s.positions

theorem Command.positions_subset {it : Item} {cmd : Command} (h : cmd ∈ it.commands) :
    cmd.positions ⊆ it.positions := by
  cases it with
  | stmt s =>
    rw [List.mem_singleton.1 h]
    exact List.Subset.refl _
  | func f =>
    have hown : [f.pos] ⊆ f.positions := List.cons_subset.2 ⟨List.mem_cons_self, List.nil_subset _⟩
    obtain rfl | h := List.mem_cons.1 h
    · exact hown
    obtain h | h := List.mem_append.1 h
    · obtain ⟨s, hs, rfl⟩ := List.mem_map.1 h
      intro p hp
      exact List.mem_cons_of_mem _ (List.mem_append_right _ (List.mem_flatMap.2 ⟨s, hs, hp⟩))
    · rw [List.mem_singleton.1 h]
      exact hown

theorem Command.pos_of_fails {cmd : Command} {em : Emitter} {x : ScriptError}
    (h : cmd.emit.Fails em x) : x.pos ∈ cmd.positions := by
  cases cmd with
  | enter f =>
    obtain h | ⟨ref, em₁, -, h⟩ := Emission.fails_bind.1 h
    · obtain ⟨c, -, rfl⟩ := Emission.fails_engine.1 h
      exact List.mem_cons_self
    · exact absurd (Emission.fails_modify.1 h) not_false
  | stmt s => exact (Emission.Steady.stmt s em).2 x h
  | leave f =>
    rw [Command.emit, Emission.fails_get_bind] at h
    cases hs : em.scope with
    | none =>
      rw [hs] at h
      exact absurd (Emission.fails_modify.1 h) not_false
    | some s =>
      rw [hs] at h
      obtain h | ⟨u, em₁, -, h⟩ := Emission.fails_bind.1 h
      · obtain ⟨c, -, rfl⟩ := Emission.fails_engine.1 h
        exact List.mem_cons_self
      · exact absurd (Emission.fails_modify.1 h) not_false

/-- What is reported when an item fails: one of its commands reports it, after those before. -/
def Item.Reports (em : Emitter) (it : Item) (c : EmitError) : Prop :=
  ∃ pre cmd post em₁, it.commands = pre ++ cmd :: post ∧
    (runAll pre).Yields em () em₁ ∧ em₁.Reports cmd c

theorem Item.pos_and_cause_of_fails {it : Item} {em : Emitter} {x : ScriptError}
    (hscope : em.scope = none) (h : (Emission.item it).Fails em x) :
    x.pos ∈ it.positions ∧ ∀ c, x.cause = some c ↔ it.Reports em c := by
  have hrun : (runAll it.commands).Fails em x := by
    rw [Emission.Fails, ← (Emission.item_sameEnd it hscope).1]
    exact h
  obtain ⟨pre, cmd, post, em₁, hcmds, hpre, hcmd⟩ := Emission.forM_fails_iff.1 hrun
  refine ⟨?_, fun c => ⟨fun hc => ?_, ?_⟩⟩
  · exact Command.positions_subset (by rw [hcmds]; simp) (Command.pos_of_fails hcmd)
  · exact ⟨pre, cmd, post, em₁, hcmds, hpre,
      Emission.command_blames_iff.1 (hcmd.cause_eq_some_iff.1 hc)⟩
  · rintro ⟨pre', cmd', post', em₂, hcmds', hpre', hreports⟩
    obtain ⟨y, hy, hc⟩ := Emission.command_blames_iff.2 hreports
    have hrun' : (runAll it.commands).Fails em y :=
      Emission.forM_fails_iff.2 ⟨pre', cmd', post', em₂, hcmds', hpre', hy⟩
    rw [hrun.unique hrun']
    exact hc

/-! ## Scripts -/

namespace Emission

variable {α : Type} {f : α → Emission Unit} {pre post : List α} {a : α} {em em₁ : Emitter}
  {x : ScriptError}

theorem forM_append (xs ys : List α) :
    (xs ++ ys).forM f = xs.forM f >>= fun _ => ys.forM f := by
  simp only [List.forM_eq_forM, List.forM_append]

/-- A run ends where it fails, whatever would come behind. -/
theorem outcome_forM_of_fails (hpre : (pre.forM f).Yields em () em₁) (ha : (f a).Fails em₁ x)
    (post : List α) : ((pre ++ a :: post).forM f).outcome em = (f a).outcome em₁ := by
  rw [forM_append, outcome_bind, show (pre.forM f).outcome em = (.ok (), em₁) from hpre]
  show (f a >>= fun _ => post.forM f).outcome em₁ = _
  rw [outcome_bind]
  rw [Fails] at ha
  generalize (f a).outcome em₁ = ending at ha ⊢
  obtain ⟨y | u, em₂⟩ := ending
  · rfl
  · cases ha

/-- The run gets through the elements before the one at which it fails, and through no more. -/
theorem forM_take_yields_iff (hpre : (pre.forM f).Yields em () em₁) (ha : (f a).Fails em₁ x)
    (j : Nat) : (∃ em', (((pre ++ a :: post).take j).forM f).Yields em () em') ↔
      j ≤ pre.length := by
  constructor
  · rintro ⟨em', h⟩
    by_contra hlt
    obtain ⟨n, rfl⟩ := Nat.exists_eq_add_of_lt (Nat.lt_of_not_le hlt)
    rw [show pre.length + n + 1 = pre.length + (n + 1) from rfl, List.take_length_add_append,
      List.take_succ_cons] at h
    exact not_yields_of_fails (forM_fails_iff.2 ⟨pre, a, _, em₁, rfl, hpre, ha⟩) h
  · intro hj
    rw [List.take_append_of_le_length hj]
    rw [← List.take_append_drop j pre, forM_append] at hpre
    obtain ⟨u, em', h, -⟩ := yields_bind.1 hpre
    exact ⟨em', h⟩

end Emission

/-- The script with its first items only. -/
def upTo (s : Script) (k : Nat) : Script := { s with items := s.items.take k }

/-- The script runs up to an item, and not through it. -/
def StopsAt (s : Script) (e : Engine) (k : Nat) : Prop :=
  (∃ e₁, (s.upTo k).emit e = (.ok (), e₁)) ∧ ∃ x e₁, (s.upTo (k + 1)).emit e = (.error x, e₁)

theorem emit_eq (s : Script) (e : Engine) : s.emit e =
    (((s.items.forM Emission.item).outcome (.new e)).1.mapError fun x => { x with file := s.file },
      ((s.items.forM Emission.item).outcome (.new e)).2.engine) := rfl

theorem emit_ok_iff {s : Script} {e : Engine} : (∃ e', s.emit e = (.ok (), e')) ↔
    ∃ em, (s.items.forM Emission.item).Yields (.new e) () em := by
  rw [emit_eq]
  unfold Emission.Yields
  rcases (s.items.forM Emission.item).outcome (.new e) with ⟨y | u, em⟩
  · simp [Except.mapError]
  · simp [Except.mapError]

theorem fails_of_emit {s : Script} {e e' : Engine} {x : ScriptError}
    (h : s.emit e = (.error x, e')) :
    ∃ y, (s.items.forM Emission.item).Fails (.new e) y ∧ x = { y with file := s.file } := by
  rw [emit_eq] at h
  unfold Emission.Fails
  generalize (s.items.forM Emission.item).outcome (.new e) = ending at h ⊢
  obtain ⟨y | u, em⟩ := ending
  · cases h
    exact ⟨y, rfl, rfl⟩
  · cases h

theorem scope_of_items {is : List Item} {e : Engine} {em : Emitter}
    (h : (is.forM Emission.item).Yields (.new e) () em) : em.scope = none := by
  obtain ⟨-, -, hok⟩ := Emission.items_sameEnd is (.new e) rfl
  rw [show (is.forM Emission.item).outcome (.new e) = (.ok (), em) from h] at hok
  exact (hok rfl).2

theorem stopsAt_iff {s : Script} {e : Engine} {pre post : List Item} {it : Item} {em : Emitter}
    {x : ScriptError} (hitems : s.items = pre ++ it :: post)
    (hpre : (pre.forM Emission.item).Yields (.new e) () em) (hit : (Emission.item it).Fails em x)
    (j : Nat) : s.StopsAt e j ↔ j = pre.length := by
  have hruns (n : Nat) : (∃ e₁, (s.upTo n).emit e = (.ok (), e₁)) ↔ n ≤ pre.length := by
    rw [emit_ok_iff, upTo, hitems]
    exact Emission.forM_take_yields_iff hpre hit n
  have hfails : (∃ y e₁, (s.upTo (j + 1)).emit e = (.error y, e₁)) ↔
      ¬ ∃ e₁, (s.upTo (j + 1)).emit e = (.ok (), e₁) := by
    rcases (s.upTo (j + 1)).emit e with ⟨y | u, e₁⟩ <;> simp
  rw [StopsAt, hfails, hruns, hruns]
  omega

/-- A script that fails does so at exactly one of its items: up to the item it runs, and through
the item it does not.  The error is in the file of the script, at a position of the item.  It has a
cause exactly if the engine refused a request of the item or a number in the item could not be
read.  All that the items before the failure have made is still in the engine. -/
theorem emit_fails_at {s : Script} {e e' : Engine} {x : ScriptError}
    (h : s.emit e = (.error x, e')) :
    ∃ k it em, (∀ j, s.StopsAt e j ↔ j = k) ∧ s.items[k]? = some it ∧
      (s.upTo (k + 1)).emit e = (.error x, e') ∧
      ((s.upTo k).items.forM Emission.item).Yields (.new e) () em ∧
      x.file = s.file ∧ x.pos ∈ it.positions ∧ (∀ c, x.cause = some c ↔ it.Reports em c) ∧
      ((s.upTo k).emit e).2.Extends e' := by
  obtain ⟨y, hy, rfl⟩ := fails_of_emit h
  obtain ⟨pre, it, post, em, hitems, hpre, hit⟩ := Emission.forM_fails_iff.1 hy
  have hscope := scope_of_items hpre
  obtain ⟨hpos, hcause⟩ := Item.pos_and_cause_of_fails hscope hit
  have hbefore : (s.upTo pre.length).items = pre := by
    rw [upTo, hitems]
    exact List.take_left
  have hthrough : (s.upTo (pre.length + 1)).items = pre ++ it :: [] := by
    rw [upTo, hitems]
    exact List.take_length_add_append 1
  -- Both the script and its part through the item end as the item ends.
  have hend : e' = ((Emission.item it).outcome em).2.engine := by
    rw [emit_eq, hitems, Emission.outcome_forM_of_fails hpre hit] at h
    exact (congrArg Prod.snd h).symm
  refine ⟨pre.length, it, em, stopsAt_iff hitems hpre hit, ?_, ?_, ?_, rfl, hpos, hcause, ?_⟩
  · rw [hitems]
    simp
  · rw [emit_eq, hthrough, Emission.outcome_forM_of_fails hpre hit, hend,
      show ((Emission.item it).outcome em).1 = .error y from hit]
    rfl
  · rw [hbefore]
    exact hpre
  · rw [emit_eq, hbefore, show (pre.forM Emission.item).outcome (.new e) = (.ok (), em) from hpre,
      hend]
    exact Emission.item_extends it hscope

/-- A global that is declared again inside of a function. -/
theorem emit_fails_at_duplicate :
    let again : Stmt := ⟨⟨26, 3, 3⟩, .globalVar "g" "int32"⟩
    let s : Script := ⟨⟨0, 1, 1⟩, none,
      [.stmt ⟨⟨0, 1, 1⟩, .globalVar "g" "int32"⟩, .func ⟨⟨15, 2, 1⟩, "f", [], [again]⟩],
      "twice.asml"⟩
    let e := Engine.new .bits64 true
    ∃ x e', s.emit e = (.error x, e') ∧ x.pos = again.pos ∧
      x.cause = some (.duplicateSymbol "g") ∧ ∃ k, (∀ j, s.StopsAt e j ↔ j = k) ∧
        ((s.upTo k).emit e).2.Extends e' := by
  intro again s e
  have herror : (s.emit e).1 =
      .error ⟨.engine (.duplicateSymbol "g"), ⟨26, 3, 3⟩, "twice.asml"⟩ := by decide +kernel
  obtain ⟨x, e', h⟩ : ∃ x e', s.emit e = (x, e') := ⟨_, _, (Prod.eta _).symm⟩
  rw [h] at herror
  subst herror
  obtain ⟨k, it, em, hstops, -, -, -, -, -, -, hextends⟩ := emit_fails_at h
  exact ⟨_, e', h, rfl, rfl, k, hstops, hextends⟩

end Script

end Assembly
