import Assembly.Proofs.Engine.Effects
import Assembly.Proofs.Engine.Part

/-!
# Strict engines and permissive ones

An engine asks for its mode in four places: at a type without a size rule, at a symbol or a
local that is there already, and when the registers of a class are used up.  A strict
engine refuses there; a permissive one warns and goes on.

An operation is conservative if the mode makes no other difference to it: on a strict
engine it is refused by one of these rules, or the permissive engine in the same state
answers the same, makes the same moves and has nothing to warn about.  It announces the
difference if the permissive engine warns wherever the strict one refuses.  Operations built
from ones that announce do so, too, and all but two are built like that: the check for a second
local of one name is the only one that a permissive engine passes over in silence, and the
last operation, `finalize`, always warns of an open function.  `serveAll_relaxed` carries this
through a run.
-/

namespace Assembly

/-- Whether a reply is a refusal by such a rule. -/
def refusedByPolicy {α : Type} : Except EmitError α → Bool
  | .error x => x.isPolicy
  | .ok _ => false

namespace EmitError

/-- Whether a failure is that of a second local of one name. -/
def isLocalClash : EmitError → Bool
  | duplicateLocal _ _ => true
  | _ => false

theorem isLocalClash_of_root {x : EmitError} (h : x.root.isLocalClash = false) :
    x.isLocalClash = false := by
  cases x <;> first | rfl | exact h

end EmitError

/-- Whether a move logs a warning. -/
def Move.warns : Move → Bool
  | log .warn _ _ => true
  | _ => false

theorem Move.warns_of_plain {m : Move} (h : m.plain) : m.warns = false := by
  cases m with
  | log level => cases level <;> first | rfl | cases h
  | _ => rfl

theorem Move.warns_of_keeps {name : Text} {m : Move} (h : m.keeps name) : m.warns = false := by
  cases m with
  | log => cases h
  | _ => rfl

/-! ## The permissive twin of an engine -/

/-- The register file with the same registers in use that never refuses. -/
def RegisterFile.relaxed (f : RegisterFile) : RegisterFile := { f with strict := false }

namespace Engine

/-- The permissive engine in the same state. -/
def relaxed (e : Engine) : Engine := { e with strict := false, regs := e.regs.relaxed }

structure Strict (e : Engine) : Prop where
  rules : e.strict = true
  file : e.regs.strict = true

theorem strict_new (t : Target) : (new t true).Strict := ⟨rfl, rfl⟩

/-- The warnings in the log. -/
def warnings (e : Engine) : List Log.Entry := e.log.filter (·.level = .warn)

/-- No move changes the mode, and only one that warns adds a warning. -/
theorem make_mode (e : Engine) (m : Move) :
    (e.make m).strict = e.strict ∧ (m.warns = false → (e.make m).warnings = e.warnings) := by
  cases m with
  | log level message fields =>
    refine ⟨rfl, fun h => ?_⟩
    cases level with
    | debug => simp [make, record, warnings]
    | warn => cases h
  | instr | raw => simp only [make, addLine]; split <;> exact ⟨rfl, fun _ => rfl⟩
  | define => simp only [make, addSymbol]; split <;> exact ⟨rfl, fun _ => rfl⟩
  | link b => cases b <;> exact ⟨rfl, fun _ => rfl⟩
  | take c =>
    rw [make]
    obtain h | ⟨a, g, -, h | h⟩ := e.take_cases c
    · rw [h]; exact ⟨rfl, fun _ => rfl⟩
    · rw [h]; exact ⟨rfl, fun _ => rfl⟩
    · rw [h]; exact ⟨rfl, fun _ => rfl⟩
  | enter => simp only [make, enter]; split <;> exact ⟨rfl, fun _ => rfl⟩
  | leave => simp only [make, leave]; split <;> exact ⟨rfl, fun _ => rfl⟩
  | _ => exact ⟨rfl, fun _ => rfl⟩

theorem makeAll_strict (e : Engine) (ms : List Move) : (e.makeAll ms).strict = e.strict := by
  induction ms generalizing e with
  | nil => rfl
  | cons m ms ih => exact (ih (e.make m)).trans (e.make_mode m).1

theorem Strict.makeAll {e : Engine} (he : e.Strict) (ms : List Move) : (e.makeAll ms).Strict :=
  ⟨(e.makeAll_strict ms).trans he.rules, (e.makeAll_regs_strict ms).trans he.file⟩

/-- A strict engine whose registers are used up hands out none, and the permissive twin
hands out one that is in use already, which changes nothing. -/
theorem relaxed_take {e : Engine} (he : e.Strict) (c : RegClass) :
    e.relaxed.take c = (e.take c).relaxed := by
  have hfree : e.relaxed.regs.firstFree? c = e.regs.firstFree? c := by cases c <;> rfl
  rw [take, take, RegisterFile.alloc?, RegisterFile.alloc?, hfree]
  cases hf : e.regs.firstFree? c with
  | some r =>
    show (if _ then _ else _) = Engine.relaxed (if _ then _ else _)
    by_cases hc : c = .int
    · subst hc
      rfl
    · rw [if_neg (fun h => hc h.2), if_neg (fun h => hc h.2)]
      cases c with
      | int => exact absurd rfl hc
      | float => rfl
  | none =>
    have hsame : e.relaxed.regs.strict = false := rfl
    simp only [he.file, hsame, if_true, if_neg Bool.false_ne_true]
    cases (e.relaxed.regs.pool c).head? with
    | none => rfl
    | some r => exact if_neg (fun h => Bool.false_ne_true h.1)

theorem relaxed_make {e : Engine} (he : e.Strict) (m : Move) :
    e.relaxed.make m = (e.make m).relaxed := by
  cases m with
  | instr | raw =>
    simp only [make, addLine]
    cases h : e.current <;> simp [relaxed, h]
  | define name =>
    simp only [make, addSymbol]
    by_cases h : e.defines name = true
    · rw [if_pos h, if_pos (show e.relaxed.defines name = true from h)]
    · rw [if_neg h, if_neg (show ¬ e.relaxed.defines name = true from h)]
      rfl
  | link b => cases b <;> rfl
  | take c => exact relaxed_take he c
  | give c r => cases c <;> rfl
  | enter =>
    simp only [make, enter]
    cases h : e.current <;> simp [relaxed, h, nextId, RegisterFile.relaxed, RegisterFile.reset]
  | leave =>
    simp only [make, leave]
    cases h : e.current <;> simp [relaxed, h]
  | _ => rfl

theorem relaxed_makeAll {e : Engine} (he : e.Strict) (ms : List Move) :
    e.relaxed.makeAll ms = (e.makeAll ms).relaxed := by
  induction ms generalizing e with
  | nil => rfl
  | cons m ms ih =>
    rw [makeAll_cons, relaxed_make he, makeAll_cons]
    exact ih (he.makeAll [m])

theorem warnings_makeAll {ms : List Move} (h : ∀ m ∈ ms, m.warns = false) (e : Engine) :
    (e.makeAll ms).warnings = e.warnings := by
  induction ms generalizing e with
  | nil => rfl
  | cons m ms ih =>
    have hrest := ih (fun k hk => h k (List.mem_cons_of_mem m hk)) (e.make m)
    exact hrest.trans ((e.make_mode m).2 (h m List.mem_cons_self))

end Engine

/-! ## Conservative operations -/

namespace Emit

variable {α β : Type}

/-- A strict engine `e` refuses by policy what `m` asks, or its permissive twin does the
same, without a warning. -/
def RelaxesAt (m : Emit α) (e : Engine) : Prop :=
  refusedByPolicy (m e).1 = true ∨ (m e.relaxed = m e ∧ ∀ k ∈ (m e).2, k.warns = false)

def Conservative (m : Emit α) : Prop := ∀ e : Engine, e.Strict → m.RelaxesAt e

/-- An operation without the rule about locals: where a strict engine refuses it by policy, the
permissive twin warns. -/
def Announces (m : Emit α) : Prop :=
  ∀ e : Engine, e.Strict →
    (∃ x, (m e).1 = .error x ∧ x.isPolicy = true ∧ x.root.isLocalClash = false ∧
      ∃ k ∈ (m e.relaxed).2, k.warns = true) ∨
    (refusedByPolicy (m e).1 = false ∧ m e.relaxed = m e ∧ ∀ k ∈ (m e).2, k.warns = false)

theorem mem_moves_bind {m : Emit α} (f : α → Emit β) {e : Engine} {k : Move} (h : k ∈ (m e).2) :
    k ∈ ((m >>= f) e).2 := by
  rw [bind_apply]
  cases (m e).1 with
  | error x => exact h
  | ok a => exact List.mem_append_left _ h

namespace Announces

theorem pure (a : α) : (Pure.pure a : Emit α).Announces :=
  fun _ _ => .inr ⟨rfl, rfl, fun _ hk => nomatch hk⟩

theorem throw {x : EmitError} (h : x.isPolicy = false) :
    (MonadExcept.throw x : Emit α).Announces :=
  fun _ _ => .inr ⟨h, rfl, fun _ hk => nomatch hk⟩

theorem moves {ms : List Move} (h : ∀ k ∈ ms, k.warns = false) : (Emit.moves ms).Announces :=
  fun _ _ => .inr ⟨rfl, rfl, h⟩

theorem move {m : Move} (h : m.warns = false) : (Emit.move m).Announces :=
  moves (by simpa using h)

theorem instrs (is : List Instr) : (Emit.instrs is).Announces := by
  refine moves fun k hk => ?_
  obtain ⟨i, -, rfl⟩ := List.mem_map.mp hk
  rfl

theorem bind {m : Emit α} {f : α → Emit β} (hm : m.Announces) (hf : ∀ a, (f a).Announces) :
    (m >>= f).Announces := by
  intro e he
  obtain ⟨x, hx, hp, hroot, k, hk, hw⟩ | ⟨hgranted, hsame, hquiet⟩ := hm e he
  · refine .inl ⟨x, ?_, hp, hroot, k, mem_moves_bind f hk, hw⟩
    rw [bind_apply, hx]
  rw [bind_apply, bind_apply, hsame]
  cases hr : (m e).1 with
  | error x => exact .inr ⟨by rw [← hgranted, hr]; rfl, rfl, hquiet⟩
  | ok a =>
    -- Both engines have made the same moves, so they are twins again.
    dsimp only
    rw [Engine.relaxed_makeAll he]
    obtain ⟨x, hx, hp, hroot, k, hk, hw⟩ | ⟨hgranted', hsame', hquiet'⟩ :=
      hf a _ (he.makeAll (m e).2)
    · exact .inl ⟨x, hx, hp, hroot, k, List.mem_append_right _ hk, hw⟩
    · rw [hsame']
      refine .inr ⟨hgranted', rfl, fun k hk => ?_⟩
      exact (List.mem_append.mp hk).elim (hquiet k) (hquiet' k)

/-- An operation may read the mode if the twin warns where that makes a difference. -/
theorem reading {f : Engine → Emit β}
    (h : ∀ e, e.Strict →
      (∃ x, f e = MonadExcept.throw x ∧ x.isPolicy = true ∧ x.root.isLocalClash = false ∧
        ∃ k ∈ (f e.relaxed e.relaxed).2, k.warns = true) ∨
      (f e.relaxed = f e ∧ (f e).Announces)) : (MonadReader.read >>= f).Announces := by
  intro e he
  have hrun : ∀ e', (MonadReader.read >>= f) e' = f e' e' := fun _ => rfl
  rw [hrun, hrun]
  obtain ⟨x, hx, hannounced⟩ | ⟨hsame, hf⟩ := h e he
  · exact .inl ⟨x, by rw [hx]; rfl, hannounced⟩
  · rw [hsame]
    exact hf e he

theorem read {f : Engine → Emit β} (hsame : ∀ e, f e.relaxed = f e)
    (hf : ∀ e, (f e).Announces) : (MonadReader.read >>= f).Announces :=
  reading fun e _ => .inr ⟨hsame e, hf e⟩

theorem ite {c : Prop} [Decidable c] {m n : Emit α} (hm : m.Announces) (hn : n.Announces) :
    (if c then m else n).Announces := by
  split
  · exact hm
  · exact hn

theorem rewording {m : Emit α} {words : EmitError → EmitError}
    (hwords : ∀ x, (words x).root = x.root) (hm : m.Announces) : (m.rewording words).Announces := by
  have hpolicy : ∀ x, (words x).isPolicy = x.isPolicy := by
    intro x
    rw [EmitError.isPolicy, EmitError.isPolicy, hwords]
  have hrun : ∀ e, (m.rewording words e).1 = (m e).1.mapError words := fun _ => rfl
  intro e he
  obtain ⟨x, hx, hp, hroot, hwarns⟩ | ⟨hgranted, hsame, hquiet⟩ := hm e he
  · refine .inl ⟨words x, ?_, (hpolicy x).trans hp, by rw [hwords]; exact hroot, hwarns⟩
    rw [hrun, hx]
    rfl
  · refine .inr ⟨?_, ?_, hquiet⟩
    · rw [hrun]
      cases hr : (m e).1 with
      | ok a => rfl
      | error x =>
        rw [hr] at hgranted
        exact (hpolicy x).trans hgranted
    · rw [Emit.rewording, Emit.rewording, hsame]

/-- What is done at the end is done in both modes, if it is never refused. -/
theorem finishing {m : Emit α} {last : Emit Unit} (hm : m.Announces) (hlast : last.Announces)
    (hgrants : ∀ e, ∃ ms, last.Grants e () ms) : (m.finishing last).Announces := by
  intro e he
  obtain ⟨x, hx, hp, hroot, k, hk, hw⟩ | ⟨hgranted, hsame, hquiet⟩ := hm e he
  · exact .inl ⟨x, hx, hp, hroot, k, List.mem_append_left _ hk, hw⟩
  obtain ⟨ms, hms⟩ := hgrants (e.makeAll (m e).2)
  obtain ⟨x, hx, -⟩ | ⟨-, hsame', hquiet'⟩ := hlast _ (he.makeAll (m e).2)
  · rw [hms] at hx
    cases hx
  · refine .inr ⟨hgranted, ?_, fun k hk => ?_⟩
    · rw [Emit.finishing, Emit.finishing, hsame, Engine.relaxed_makeAll he, hsame']
    · exact (List.mem_append.mp hk).elim (hquiet k) (hquiet' k)

/-! ### Where the mode is asked for -/

theorem checkType (type : Text) : (Emit.checkType type).Announces := by
  refine reading fun e he => ?_
  by_cases hk : e.target.knows type = true
  · have hk' : e.relaxed.target.knows type = true := hk
    rw [if_pos hk, if_pos hk']
    exact .inr ⟨rfl, pure ()⟩
  · have hk' : ¬ e.relaxed.target.knows type = true := hk
    have hmode : ¬ e.relaxed.strict = true := Bool.false_ne_true
    rw [if_neg hk, if_neg hk', if_neg hmode]
    simp only [he.rules, if_true]
    exact .inl ⟨.unknownType type, rfl, rfl, rfl, _, List.mem_singleton.mpr rfl, rfl⟩

theorem claimSymbol (name : Text) : (Emit.claimSymbol name).Announces := by
  refine reading fun e he => ?_
  by_cases hd : e.defines name = true
  · have hd' : e.relaxed.defines name = true := hd
    have hmode : ¬ e.relaxed.strict = true := Bool.false_ne_true
    rw [if_pos hd, if_pos hd', if_neg hmode]
    simp only [he.rules, if_true]
    exact .inl ⟨.duplicateSymbol name, rfl, rfl, rfl, _, List.mem_cons_self, rfl⟩
  · have hd' : ¬ e.relaxed.defines name = true := hd
    rw [if_neg hd, if_neg hd']
    exact .inr ⟨rfl, move rfl⟩

theorem allocRegAs (type : Text) (temp : Bool) : (Emit.allocRegAs type temp).Announces := by
  refine reading fun e he => ?_
  have hfree : e.relaxed.regs.firstFree? (TypePolicy.regClass type) =
      e.regs.firstFree? (TypePolicy.regClass type) := by
    cases TypePolicy.regClass type <;> rfl
  cases hf : e.regs.firstFree? (TypePolicy.regClass type) with
  | some r =>
    dsimp only
    rw [RegisterFile.alloc?_of_firstFree? hf, RegisterFile.alloc?_of_firstFree? (hfree.trans hf)]
    exact .inr ⟨rfl, (move rfl).bind fun _ => (move rfl).bind fun _ => pure _⟩
  | none =>
    have hnone : e.regs.alloc? (TypePolicy.regClass type) = none := by
      rw [RegisterFile.alloc?, hf, he.file]
      rfl
    -- No pool is empty, so the twin hands out the first register again.
    obtain ⟨r, hr⟩ : ∃ r, (e.relaxed.regs.pool (TypePolicy.regClass type)).head? = some r := by
      cases TypePolicy.regClass type <;> cases ht : e.relaxed.regs.target <;>
        exact ⟨_, by rw [RegisterFile.pool, ht]; rfl⟩
    have htwin : e.relaxed.regs.alloc? (TypePolicy.regClass type) =
        some (⟨r, false⟩, e.relaxed.regs) := by
      rw [RegisterFile.alloc?, hfree, hf, hr]
      rfl
    dsimp only
    rw [hnone, htwin]
    exact .inl ⟨_, rfl, rfl, rfl, _, List.mem_cons_of_mem _ List.mem_cons_self, rfl⟩

/-! ### Operations -/

theorem openFrame (f : FunctionRef) : (Emit.openFrame f).Announces := by
  refine read (fun _ => rfl) fun e => ?_
  cases e.current with
  | none => exact throw rfl
  | some g => exact ite (pure g) (throw rfl)

theorem release (v : Value) : (Emit.release v).Announces :=
  read (fun _ => rfl) fun _ => ite ((move rfl).bind fun _ => move rfl) (pure ())

theorem addGenerated {m : Move} (hm : m.warns = false) (name : Text) (directive : Directive)
    (content : Content) {last : Emit α} (hlast : last.Announces) :
    (Emit.move m >>= fun _ => Emit.addGenerated name directive content >>= fun _ =>
      last).Announces :=
  (move hm).bind fun _ => (moves (by simp [Move.warns])).bind fun _ => hlast

theorem need (b : Builtin) : (Emit.need b).Announces := by
  have hadd : ∀ b, (Emit.addBuiltin b).Announces := fun _ => (move rfl).bind fun _ => move rfl
  have hint : Emit.needPrintInt.Announces := by
    refine read (fun _ => rfl) fun e => ite (pure ()) ?_
    exact (moves (by simp [Move.warns])).bind fun _ => hadd .printInt
  cases b with
  | printInt => exact hint
  | printFloat =>
    refine read (fun _ => rfl) fun e => ite (pure ()) (hint.bind fun _ => ?_)
    exact (moves (by simp [Move.warns])).bind fun _ => hadd .printFloat

theorem part (q : Request) (known : List Text) {m : Emit α} (h : Part q known m) : m.Announces := by
  induction h with
  | pure a => exact pure a
  | throw h => exact throw h
  | bind _ _ ihm ihf => exact ihm.bind ihf
  | reading hsame _ ih => exact read (fun e => hsame _ _ rfl) ih
  | rewording hwords _ ih => exact ih.rewording hwords
  | finishing _ v ih =>
    refine ih.finishing (release v) fun e => ?_
    obtain ⟨ms, hms, -⟩ := release_moves v e
    exact ⟨ms, hms⟩
  | moves h => exact moves fun m hm => Move.warns_of_plain (h m hm)
  | instrs => exact instrs _
  | leave | calls => exact move rfl
  | checkType type => exact checkType type
  | claimSymbol => exact claimSymbol _
  | keeping _ hm => exact move (Move.warns_of_keeps hm)
  | allocRegAs type temp => exact allocRegAs type temp
  | release v => exact release v
  | addLiteral _ directive content _ ih =>
    exact (read (fun _ => rfl) fun _ => addGenerated rfl _ _ _ (pure _)).bind ih
  | printString s => exact read (fun _ => rfl) fun e => addGenerated rfl _ _ _ (instrs _)
  | need b _ ih => exact (need b).bind fun _ => ih

theorem beginFunction (name : Text) (params : List Param) :
    (Emit.beginFunction name params).Announces := by
  refine read (fun _ => rfl) fun e => ?_
  dsimp only
  split
  · -- What stands after the refusal does not matter.
    exact throw (x := .functionOpen name _) rfl
  · refine (claimSymbol name).bind fun _ => ?_
    refine (part (.beginFunction name params) [] (.checkParams name params)).bind fun _ => ?_
    refine read (fun _ => rfl) fun e' => ?_
    exact (move rfl).bind fun _ => (move rfl).bind fun _ => pure _

theorem frameFor (f : FunctionRef) (type : Text) : (Emit.frameFor f type).Announces :=
  (openFrame f).bind fun g => (checkType type).bind fun _ => pure g

theorem request {q : Request} (h : ∀ f name type, q ≠ .declareLocal f name type)
    (hlast : q ≠ .finalize) : q.emit.Announces := by
  cases q.shape with
  | part _ hpart => exact part q _ hpart
  | onFrame f hshift hop =>
    obtain ⟨rest, hop, hpart, -⟩ := hop
    rw [← q.shift_zero, hshift, hop]
    exact (openFrame _).bind fun g => part q _ (hpart g)
  | beginFunction hq =>
    subst hq
    exact (beginFunction _ _).bind fun _ => pure _
  | declareLocal hq => exact absurd hq (h _ _ _)
  | finalize hq => exact absurd hq hlast

theorem conservative {m : Emit α} (h : m.Announces) : m.Conservative := by
  intro e he
  obtain ⟨x, hx, hp, -⟩ | ⟨-, hsame⟩ := h e he
  · exact .inl (by rw [hx]; exact hp)
  · exact .inr hsame

end Announces

/-- The declaration of a local warns about the type and never about the name. -/
theorem declareLocal_relaxes {e : Engine} (he : e.Strict) (f : FunctionRef) (name type : Text) :
    (∃ x, (declareLocal f name type e).1 = .error x ∧ x.isPolicy = true ∧
      ((∃ k ∈ (declareLocal f name type e.relaxed).2, k.warns = true) ↔ x.isLocalClash = false)) ∨
    (refusedByPolicy (declareLocal f name type e).1 = false ∧
      declareLocal f name type e.relaxed = declareLocal f name type e ∧
      ∀ k ∈ (declareLocal f name type e).2, k.warns = false) := by
  rw [declareLocal_eq]
  obtain ⟨x, hx, hp, hroot, k, hk, hw⟩ | ⟨hgranted, hsame, hquiet⟩ :=
    Announces.frameFor f type e he
  · refine .inl ⟨x, by rw [bind_apply, hx], hp, ?_⟩
    exact iff_of_true ⟨k, mem_moves_bind _ hk, hw⟩ (EmitError.isLocalClash_of_root hroot)
  rw [bind_apply, bind_apply, hsame]
  cases hr : (frameFor f type e).1 with
  | error x => exact .inr ⟨by rw [← hgranted, hr]; rfl, rfl, hquiet⟩
  | ok g =>
    dsimp only
    have hstrict := (he.makeAll (frameFor f type e).2).rules
    have hmode : ¬ (e.makeAll (frameFor f type e).2).relaxed.strict = true := Bool.false_ne_true
    have hsilent : ∀ k ∈ (frameFor f type e).2 ++ [Move.addLocal name type], k.warns = false := by
      intro k hk
      rcases List.mem_append.mp hk with hk | hk
      · exact hquiet k hk
      · rw [List.mem_singleton.mp hk]
        rfl
    have htwin : addLocal g name type (e.makeAll (frameFor f type e).2).relaxed =
        (.ok (g.nextSlot _ name type), [.addLocal name type]) :=
      (addLocal_run ..).trans (if_neg fun h => hmode h.2)
    rw [Engine.relaxed_makeAll he, htwin, addLocal_run]
    by_cases hl : (g.locals.get? name).isSome = true
    · rw [if_pos ⟨hl, hstrict⟩]
      refine .inl ⟨.duplicateLocal name g.name, rfl, rfl, iff_of_false ?_ Bool.noConfusion⟩
      rintro ⟨k, hk, hw⟩
      rw [hsilent k hk] at hw
      cases hw
    · rw [if_neg fun h => hl h.1]
      exact .inr ⟨rfl, rfl, hsilent⟩

namespace Conservative

theorem declareLocal (f : FunctionRef) (name type : Text) :
    (Emit.declareLocal f name type).Conservative := by
  intro e he
  obtain ⟨x, hx, hp, -⟩ | ⟨-, hsame⟩ := declareLocal_relaxes he f name type
  · exact .inl (by rw [hx]; exact hp)
  · exact .inr hsame

theorem map {m : Emit α} (f : α → β) (hm : m.Conservative) : (f <$> m).Conservative := by
  intro e he
  rw [RelaxesAt, map_apply, map_apply]
  obtain hp | ⟨hsame, hquiet⟩ := hm e he
  · left
    cases hr : (m e).1 with
    | ok a => rw [hr] at hp; cases hp
    | error x => rw [hr] at hp; exact hp
  · rw [hsame]
    exact .inr ⟨rfl, hquiet⟩

theorem request {q : Request} (h : q ≠ .finalize) : q.emit.Conservative := by
  by_cases hq : ∃ f name type, q = .declareLocal f name type
  · obtain ⟨f, name, type, rfl⟩ := hq
    exact (declareLocal f name type).map Reply.value
  · exact (Announces.request (fun f name type h => hq ⟨f, name, type, h⟩) h).conservative

theorem of_asksFor {q : Request} {m : Emit α} (h : q.AsksFor m) (hq : q ≠ .finalize) :
    m.Conservative := by
  intro e he
  obtain hp | ⟨hsame, hquiet⟩ := request hq e he
  · left
    obtain ⟨tell, -, hemit⟩ := h
    rw [hemit, map_apply] at hp
    cases hr : (m e).1 with
    | ok a => rw [hr] at hp; cases hp
    | error x => rw [hr] at hp; exact hp
  · exact .inr ⟨h.congr hsame, fun k hk => hquiet k (h.moves e ▸ hk)⟩

end Conservative

end Emit

theorem Emit.finalize_relaxed (e : Engine) : Emit.finalize e.relaxed = Emit.finalize e := by
  rw [finalize_run, finalize_run]
  rfl

/-! ## Runs -/

namespace Engine

/-- Whether no request of a run is refused by a rule of strict mode. -/
def abides (e : Engine) : List Request → Bool
  | [] => true
  | q :: qs => !refusedByPolicy (e.reply q) && (e.serve q).abides qs

/-- One request: the twins reply the same and are twins after it. -/
theorem serve_relaxed {e : Engine} (he : e.Strict) {q : Request}
    (h : refusedByPolicy (e.reply q) = false) :
    e.relaxed.reply q = e.reply q ∧ e.relaxed.serve q = (e.serve q).relaxed ∧
      (q ≠ .finalize → (e.serve q).warnings = e.warnings) := by
  have hemit : q.emit e.relaxed = q.emit e ∧ (q ≠ .finalize → ∀ k ∈ (q.emit e).2, k.warns = false) := by
    by_cases hq : q = .finalize
    · subst hq
      refine ⟨?_, fun h => absurd rfl h⟩
      show (Emit.finalize >>= fun t => pure (Reply.program t)) e.relaxed = _
      rw [Emit.bind_apply, Emit.finalize_relaxed]
      rfl
    · obtain hp | ⟨hsame, hquiet⟩ := Emit.Conservative.request hq e he
      · rw [show refusedByPolicy (q.emit e).1 = false from h] at hp
        cases hp
      · exact ⟨hsame, fun _ => hquiet⟩
  refine ⟨congrArg Prod.fst hemit.1, ?_, fun hq => warnings_makeAll (hemit.2 hq) e⟩
  rw [serve, serve, movesOf, movesOf, hemit.1, relaxed_makeAll he]

theorem Strict.serveAll {e : Engine} (he : e.Strict) (qs : List Request) :
    (e.serveAll qs).Strict := by
  induction qs generalizing e with
  | nil => exact he
  | cons q qs ih => exact ih (he.makeAll (e.movesOf q))

theorem abides_append {e : Engine} {pre qs : List Request} :
    e.abides (pre ++ qs) = (e.abides pre && (e.serveAll pre).abides qs) := by
  induction pre generalizing e with
  | nil => rfl
  | cons q pre ih => simp only [List.cons_append, abides, ih, Bool.and_assoc]; rfl

/-- A run without such refusals is the same run on the permissive twin. -/
theorem serveAll_relaxed {e : Engine} (he : e.Strict) {qs : List Request} (h : e.abides qs = true) :
    e.relaxed.serveAll qs = (e.serveAll qs).relaxed := by
  induction qs generalizing e with
  | nil => rfl
  | cons q qs ih =>
    simp only [abides, Bool.and_eq_true, Bool.not_eq_true'] at h
    show (e.relaxed.serve q).serveAll qs = ((e.serve q).serveAll qs).relaxed
    rw [(serve_relaxed he h.1).2.1]
    exact ih (he.makeAll (e.movesOf q)) h.2

end Engine

end Assembly
