import Assembly.Proofs.Engine.Effects
import Assembly.Proofs.Engine.Part
import Assembly.Proofs.Symbol.Name
import Assembly.Proofs.Symbol.Segment

/-!
# Phases of an operation

As far as names are concerned, an operation goes through phases: it emits an instruction,
whose names come with the request or are labels by then; it declares the symbol of the
request; it stores a numbered constant; it brings a routine into the program; or it makes a
move that has nothing to do with names.  A phase with a generated name uses up the number, or
sets the flag, that the name stands for.

`Request.phased` derives the phases of every request, once.  Whatever each phase keeps then
holds after every run.
-/

namespace Assembly

/-- Whether a move brings no name into the program. -/
def Move.idle : Move → Bool
  | raw _ | take _ | give _ _ | resetRegs | addLocal _ _ | cache _ _ | leave | log _ _ _ => true
  | _ => false

theorem Move.idle_of_plain {m : Move} (h : m.plain) : m.idle := by
  cases m with
  | raw | resetRegs | cache | log => rfl
  | _ => cases h

/-- Nor does such a move change the storage, the routines or the counters. -/
theorem Stock.note_of_idle (t : Target) (s : Stock) {m : Move} (h : m.idle) : s.note t m = s := by
  cases m with
  | raw | take | give | resetRegs | addLocal | cache | leave | log => rfl
  | _ => cases h

inductive Phase (q : Request) (e : Engine) : List Move → Prop
  | idle {m : Move} (h : m.idle) : Phase q e [m]
  | instr {i : Instr} (h : ∀ l ∈ i.references, l ∈ q.brought ∨ l ∈ e.labels) :
    Phase q e [.instr i]
  | call {name : Text} (h : q.callee = some name) : Phase q e [.instr ⟨.call, [.sym name]⟩]
  | define {name : Text} (h : q.declares = some name) : Phase q e [.define name]
  | keep {name : Text} (h : q.declares = some name) {m : Move} (hm : m.keeps name) : Phase q e [m]
  | enter {name : Text} (h : q.declares = some name) (params : List Param)
    (hc : e.current = none) : Phase q e [.enter name params]
  | literal {g : GeneratedName} (h : g = .floatLiteral e.literals ∨ g = .textLiteral e.literals)
    (d : Directive) (c : Content) :
    Phase q e [.countLiteral, .define g.text, .store ⟨g.text, d, c⟩]
  | printed (c : Content) : Phase q e [.countPrint,
      .define (GeneratedName.printedText e.printBuffers).text,
      .store ⟨(GeneratedName.printedText e.printBuffers).text, .db, c⟩]
  | joining {b : Builtin} (h : e.hasBuiltin b = false)
    (hint : b = .printFloat → e.printIntAdded = true) : Phase q e (Emit.joining b)

inductive Phased (q : Request) : Engine → List Move → Prop
  | nil (e : Engine) : Phased q e []
  | cons {e : Engine} {ms ns : List Move} (h : Phase q e ms) (hrest : Phased q (e.makeAll ms) ns) :
    Phased q e (ms ++ ns)

namespace Engine

/-- Routines have their labels, and the one for floating point never comes alone. -/
structure Stocked (e : Engine) : Prop where
  unlabelled : e.Unlabelled
  routines : ∀ b, e.hasBuiltin b = true → b.label ∈ e.labels
  order : e.printFloatAdded = true → e.printIntAdded = true

theorem stocked_new (t : Target) (strict : Bool) : (new t strict).Stocked := by
  refine ⟨unlabelled_new t strict, fun b h => ?_, fun h => ?_⟩
  · cases b <;> cases h
  · cases h

end Engine

variable {q : Request} {e : Engine} {ms ns : List Move}

namespace Phase

theorem count_labels (h : Phase q e ms) (hu : e.Unlabelled) (l : Text) :
    (e.makeAll ms).labels.count l = e.labels.count l + (ms.flatMap Move.labels).count l := by
  cases h with
  | enter hq params hc =>
    rw [List.flatMap_singleton, Engine.makeAll_cons, Engine.makeAll_nil]
    exact Engine.count_labels_make hu _ (fun _ _ _ => hc) l
  | idle hm =>
    refine Engine.count_labels_makeAll hu (fun name params hmem => ?_) l
    rw [← List.mem_singleton.mp hmem] at hm
    cases hm
  | keep _ hm =>
    refine Engine.count_labels_makeAll hu (fun name params hmem => ?_) l
    rw [← List.mem_singleton.mp hmem] at hm
    cases hm
  | @joining b =>
    refine Engine.count_labels_makeAll hu (fun name params hmem => ?_) l
    cases b <;> simp [Emit.joining] at hmem
  | instr | call | define | literal | printed =>
    exact Engine.count_labels_makeAll hu (by simp) l

theorem mem_labels (h : Phase q e ms) (hu : e.Unlabelled) {l : Text} :
    l ∈ (e.makeAll ms).labels ↔ l ∈ e.labels ∨ l ∈ ms.flatMap Move.labels := by
  rw [← List.count_pos_iff, h.count_labels hu l, ← List.count_pos_iff, ← List.count_pos_iff]
  omega

/-- Only a phase of its own brings a routine. -/
theorem eq_joining (h : Phase q e ms) {b : Builtin} (hb : .link b ∈ ms) :
    ms = Emit.joining b ∧ (b = .printFloat → e.printIntAdded = true) := by
  cases h with
  | idle hm =>
    rw [← List.mem_singleton.mp hb] at hm
    cases hm
  | keep _ hm =>
    rw [← List.mem_singleton.mp hb] at hm
    cases hm
  | @joining c _ hint =>
    have hcb : c = b := by
      cases b <;> cases c <;> simp [Emit.joining] at hb ⊢
    subst hcb
    exact ⟨rfl, hint⟩
  | instr | call | define | enter | literal | printed => simp at hb

/-- Where the names of an instruction come from. -/
theorem instr_references (h : Phase q e ms) {i : Instr} (hi : .instr i ∈ ms) :
    (∀ l ∈ i.references, l ∈ q.brought ∨ l ∈ e.labels) ∨
      ∃ name, q.callee = some name ∧ i = ⟨.call, [.sym name]⟩ := by
  cases h with
  | idle hm =>
    rw [← List.mem_singleton.mp hi] at hm
    cases hm
  | instr hrefs =>
    cases List.mem_singleton.mp hi
    exact .inl hrefs
  | @call name hq =>
    cases List.mem_singleton.mp hi
    exact .inr ⟨name, hq, rfl⟩
  | keep _ hm =>
    rw [← List.mem_singleton.mp hi] at hm
    cases hm
  | @joining b => cases b <;> simp [Emit.joining] at hi
  | define | enter | literal | printed => simp at hi

theorem stocked (h : Phase q e ms) (he : e.Stocked) : (e.makeAll ms).Stocked := by
  refine ⟨he.unlabelled.makeAll ms, fun b hb => ?_, fun hfloat => ?_⟩
  · rw [h.mem_labels he.unlabelled]
    rcases (e.hasBuiltin_makeAll ms b).mp hb with hb | hb
    · exact .inl (he.routines b hb)
    · exact .inr (List.mem_flatMap.mpr ⟨.link b, hb, List.mem_singleton.mpr rfl⟩)
  · have hint : e.printIntAdded = true := by
      rcases (e.hasBuiltin_makeAll ms .printFloat).mp hfloat with hold | hnew
      · exact he.order hold
      · exact (h.eq_joining hnew).2 rfl
    exact (e.hasBuiltin_makeAll ms .printInt).mpr (.inl hint)

end Phase

namespace Phased

theorem one (h : Phase q e ms) : Phased q e ms := by
  have hone : Phased q e (ms ++ []) := .cons h (.nil _)
  rwa [List.append_nil] at hone

theorem append (h : Phased q e ms) (hrest : Phased q (e.makeAll ms) ns) : Phased q e (ms ++ ns) := by
  induction h with
  | nil => exact hrest
  | cons h _ ih =>
    rw [List.append_assoc]
    rw [Engine.makeAll_append] at hrest
    exact .cons h (ih hrest)

theorem keeps {P : Engine → Prop} (hphase : ∀ {e ms}, Phase q e ms → P e → P (e.makeAll ms))
    (h : Phased q e ms) (he : P e) : P (e.makeAll ms) := by
  induction h with
  | nil => exact he
  | cons h _ ih =>
    rw [Engine.makeAll_append]
    exact ih (hphase h he)

theorem stocked (h : Phased q e ms) (he : e.Stocked) : (e.makeAll ms).Stocked :=
  h.keeps Phase.stocked he

theorem instr_references (h : Phased q e ms) (he : e.Stocked) {i : Instr} (hi : .instr i ∈ ms) :
    (∀ l ∈ i.references, l ∈ q.brought ∨ l ∈ (e.makeAll ms).labels) ∨
      ∃ name, q.callee = some name ∧ i = ⟨.call, [.sym name]⟩ := by
  induction h with
  | nil => cases hi
  | @cons e ms ns h _ ih =>
    rcases List.mem_append.mp hi with hi | hi
    · refine (h.instr_references hi).imp (fun hrefs l hl => ?_) id
      exact (hrefs l hl).imp id fun hlabel => Engine.labels_subset_makeAll he.unlabelled _ hlabel
    · rw [Engine.makeAll_append]
      exact ih (h.stocked he) hi

theorem idle (e : Engine) (h : ∀ m ∈ ms, m.idle) : Phased q e ms := by
  induction ms generalizing e with
  | nil => exact .nil e
  | cons m ms ih =>
    have hrest := ih (e.make m) fun k hk => h k (List.mem_cons_of_mem m hk)
    exact .cons (.idle (h m List.mem_cons_self)) hrest

theorem instrs (hu : e.Unlabelled) {is : List Instr}
    (h : ∀ i ∈ is, ∀ l ∈ i.references, l ∈ q.brought ∨ l ∈ e.labels) :
    Phased q e (is.map .instr) := by
  induction is generalizing e with
  | nil => exact .nil e
  | cons i is ih =>
    have hrest := ih (hu.make (.instr i)) fun j hj l hl =>
      (h j (List.mem_cons_of_mem i hj) l hl).imp id fun hlabel => Engine.labels_subset_make hu _ hlabel
    exact .cons (.instr (h i List.mem_cons_self)) hrest

end Phased

namespace Emit

open Move

theorem checkType_idle (type : Text) (e : Engine) : ∀ m ∈ (checkType type e).2, m.idle := by
  rw [checkType_run]
  split
  · simp
  · split <;> simp [idle]

theorem allocRegAs_idle (type : Text) (temp : Bool) (e : Engine) :
    ∀ m ∈ (allocRegAs type temp e).2, m.idle := by
  rw [allocRegAs_run]
  split
  · simp
  · split <;> simp [idle]

theorem release_idle (v : Value) (e : Engine) : ∀ m ∈ (release v e).2, m.idle := by
  rw [release_run]
  dsimp only
  split <;> simp [idle]

theorem claimSymbol_phased {name : Text} (h : q.declares = some name) (e : Engine) :
    Phased q e (claimSymbol name e).2 := by
  have hdefine : ∀ e', Phased q e' [.define name] := fun _ => .one (.define h)
  rw [claimSymbol_run]
  split
  · split
    · exact .nil e
    · exact .cons (.idle rfl) (hdefine _)
  · exact hdefine e

/-- The names that an operation may refer to come with the request, or are labels. -/
def Available (q : Request) (known : List Text) (e : Engine) : Prop :=
  ∀ l ∈ known, l ∈ q.brought ∨ l ∈ e.labels

theorem Available.makeAll {known : List Text} (h : Available q known e) (hu : e.Unlabelled)
    (ms : List Move) : Available q known (e.makeAll ms) :=
  fun l hl => (h l hl).imp id fun hlabel => Engine.labels_subset_makeAll hu ms hlabel

theorem Available.cons {known : List Text} (h : Available q known e) {l : Text}
    (hl : l ∈ e.labels) : Available q (l :: known) e := by
  intro k hk
  rcases List.mem_cons.mp hk with rfl | hk
  · exact .inr hl
  · exact h k hk

theorem exists_literal {stem : Text} (h : stem ∈ literalStems) (n : Nat) :
    ∃ g : GeneratedName, (g = .floatLiteral n ∨ g = .textLiteral n) ∧ g.text = generatedName stem n := by
  rcases List.mem_cons.mp h with rfl | h
  · exact ⟨.floatLiteral n, .inl rfl, rfl⟩
  · rw [List.mem_singleton.mp h]
    exact ⟨.textLiteral n, .inr rfl, rfl⟩

/-- A constant of which the name is known from then on. -/
theorem addLiteral_phased {stem : Text} (h : stem ∈ literalStems) (directive : Target → Directive)
    (content : Content) (e : Engine) (hu : e.Unlabelled) :
    ∃ name, (addLiteral stem directive content e).1 = .ok name ∧
      Phased q e (addLiteral stem directive content e).2 ∧
      name ∈ (e.makeAll (addLiteral stem directive content e).2).labels := by
  obtain ⟨g, hg, htext⟩ := exists_literal h e.literals
  have hphase : Phase q e [.countLiteral, .define g.text,
      .store ⟨g.text, directive e.target, content⟩] := .literal hg _ _
  rw [addLiteral_run, ← htext]
  refine ⟨g.text, rfl, .one hphase, ?_⟩
  rw [hphase.mem_labels hu]
  exact .inr (by simp [Move.labels])

theorem printString_phased (s : Text) (e : Engine) (hu : e.Unlabelled) :
    Phased q e (printString s e).2 := by
  let g := GeneratedName.printedText e.printBuffers
  have hphase : Phase q e [.countPrint, .define g.text, .store ⟨g.text, .db, .bytes s 10⟩] :=
    .printed _
  rw [printString_run]
  refine (Phased.one hphase).append (.instrs (hu.makeAll _) fun i hi l hl => .inr ?_)
  rw [hphase.mem_labels hu]
  have hlabel := List.mem_singleton.mp (references_writeCode e _ _ i hi hl)
  exact .inr (by simp [Move.labels, hlabel, g, GeneratedName.text])

theorem joining_phased (b : Builtin) (he : e.Stocked) (h : e.hasBuiltin b = false)
    (hint : b = .printFloat → e.printIntAdded = true) :
    Phased q e (joining b) ∧ b.label ∈ (e.makeAll (joining b)).labels := by
  have hphase : Phase q e (joining b) := .joining h hint
  refine ⟨.one hphase, (hphase.stocked he).routines b ?_⟩
  rw [Engine.hasBuiltin_makeAll]
  exact .inr (by cases b <;> simp [joining])

theorem need_phased (b : Builtin) (e : Engine) (he : e.Stocked) :
    (need b e).1 = .ok () ∧ Phased q e (need b e).2 ∧ b.label ∈ (e.makeAll (need b e).2).labels := by
  cases b with
  | printInt =>
    rw [need_printInt]
    refine ⟨rfl, ?_⟩
    cases hint : e.printIntAdded with
    | true => exact ⟨.nil e, he.routines .printInt hint⟩
    | false => exact joining_phased .printInt he hint Builtin.noConfusion
  | printFloat =>
    rw [need_printFloat]
    refine ⟨rfl, ?_⟩
    cases hfloat : e.printFloatAdded with
    | true => exact ⟨.nil e, he.routines .printFloat hfloat⟩
    | false =>
      cases hint : e.printIntAdded with
      | true => exact joining_phased .printFloat he hfloat fun _ => hint
      | false =>
        -- Both routines join, the one for floating point after the other.
        have hfirst : Phased q e (joining .printInt) :=
          (joining_phased .printInt he hint Builtin.noConfusion).1
        have hint' : (e.makeAll (joining .printInt)).printIntAdded = true :=
          (e.hasBuiltin_makeAll _ .printInt).mpr (.inr (by simp [joining]))
        have hfloat' : (e.makeAll (joining .printInt)).hasBuiltin .printFloat = false := by
          rw [Bool.eq_false_iff, Ne, Engine.hasBuiltin_makeAll]
          simp [joining, Engine.hasBuiltin, hfloat]
        obtain ⟨hsecond, hlabel⟩ :=
          @joining_phased q _ .printFloat (hfirst.stocked he) hfloat' fun _ => hint'
        refine ⟨hfirst.append hsecond, ?_⟩
        rwa [← Engine.makeAll_append] at hlabel

theorem bind_phased {α β : Type} {m : Emit α} {f : α → Emit β} (hm : Phased q e (m e).2)
    (hf : ∀ a, (m e).1 = .ok a → Phased q (e.makeAll (m e).2) (f a (e.makeAll (m e).2)).2) :
    Phased q e ((m >>= f) e).2 := by
  rw [bind_apply]
  cases hr : (m e).1 with
  | error x => exact hm
  | ok a => exact hm.append (hf a hr)

theorem Part.phased {α : Type} {known : List Text} {m : Emit α} (h : Part q known m) (e : Engine)
    (he : e.Stocked) (hknown : Available q known e) : Phased q e (m e).2 := by
  induction h generalizing e with
  | pure | throw => exact .nil e
  | bind _ _ ihm ihf =>
    have hm := ihm e he hknown
    exact bind_phased hm fun a _ => ihf a _ (hm.stocked he) (hknown.makeAll he.unlabelled _)
  | reading _ _ ih => exact ih e e he hknown
  | rewording _ _ ih => exact ih e he hknown
  | finishing _ v ih => exact (ih e he hknown).append (.idle _ (release_idle v _))
  | moves h => exact .idle e fun m hm => Move.idle_of_plain (h m hm)
  | leave => exact .idle e (List.forall_mem_singleton.mpr rfl)
  | instrs is h => exact .instrs he.unlabelled fun i hi l hl => hknown l (h i hi hl)
  | calls h => exact .one (.call h)
  | checkType type => exact .idle e (checkType_idle type e)
  | claimSymbol h => exact claimSymbol_phased h e
  | keeping h hm => exact .one (.keep h hm)
  | allocRegAs type temp => exact .idle e (allocRegAs_idle type temp e)
  | release v => exact .idle e (release_idle v e)
  | addLiteral h directive content _ ih =>
    obtain ⟨name, hok, hphased, hlabel⟩ := addLiteral_phased h directive content e he.unlabelled
    refine bind_phased hphased fun a ha => ?_
    cases hok.symm.trans ha
    exact ih name _ (hphased.stocked he) ((hknown.makeAll he.unlabelled _).cons hlabel)
  | printString s => exact printString_phased s e he.unlabelled
  | need b _ ih =>
    obtain ⟨-, hphased, hlabel⟩ := need_phased b e he
    refine bind_phased hphased fun _ _ => ?_
    exact ih _ (hphased.stocked he) ((hknown.makeAll he.unlabelled _).cons hlabel)

/-! ## Requests -/

theorem openFrame_phased (f : FunctionRef) (e : Engine) : Phased q e (openFrame f e).2 := by
  rw [openFrame_moves]
  exact .nil e

theorem declareLocal_phased (f : FunctionRef) (name type : Text) (e : Engine) :
    Phased q e (declareLocal f name type e).2 := by
  rw [declareLocal_eq]
  refine bind_phased ?_ fun g _ => .idle _ ?_
  · refine bind_phased (openFrame_phased f e) fun g _ => ?_
    exact bind_phased (.idle _ (checkType_idle type _)) fun _ _ => .nil _
  · rw [addLocal_run]
    split <;> simp [idle]

theorem claimFunction_phased {name : Text} (h : q.declares = some name) (params : List Param)
    (e : Engine) (he : e.Stocked) : Phased q e (claimFunction name params e).2 := by
  have hclaim := claimSymbol_phased h e
  refine bind_phased hclaim fun _ _ => ?_
  have hnone : ∀ e', Available q [] e' := fun _ l hl => absurd hl List.not_mem_nil
  exact (Part.checkParams name params).phased _ (hclaim.stocked he) (hnone _)

theorem claimFunction_quiet {name : Text} {params : List Param} {u : Unit}
    (h : (claimFunction name params).Grants e u ms) : essence ms = [] := by
  obtain ⟨_, _, hclaim, _, hparams, rfl⟩ := grants_bind.mp h
  rw [essence_append, claimSymbol_quiet hclaim, checkParams_quiet hparams]
  rfl

theorem beginFunction_phased {name : Text} (h : q.declares = some name) (params : List Param)
    (e : Engine) (he : e.Stocked) : Phased q e (beginFunction name params e).2 := by
  rw [beginFunction_run]
  cases hc : e.current with
  | some f => exact .nil e
  | none =>
    refine bind_phased (claimFunction_phased h params e he) fun u hu => ?_
    have hgrants : (claimFunction name params).Grants e u (claimFunction name params e).2 :=
      Prod.ext hu rfl
    have hcurrent : (e.makeAll (claimFunction name params e).2).current = none := by
      rw [Engine.current_makeAll, claimFunction_quiet hgrants]
      exact hc
    rw [enterFunction_run]
    exact .cons (.enter h params hcurrent) (.one (.idle rfl))

end Emit

theorem Request.phased (q : Request) (e : Engine) (he : e.Stocked) : Phased q e (e.movesOf q) := by
  have hknown : Emit.Available q q.brought e := fun l hl => .inl hl
  cases q.shape with
  | part _ hpart => exact hpart.phased e he hknown
  | onFrame f hshift hop =>
    obtain ⟨rest, hop, hpart, -⟩ := hop
    have hemit : q.emit = Emit.openFrame f >>= rest := by
      rw [← hop, ← q.shift_zero, hshift]
      rfl
    rw [Engine.movesOf, hemit]
    refine Emit.bind_phased (Emit.openFrame_phased f e) fun g _ => ?_
    rw [Emit.openFrame_moves]
    exact (hpart g).phased e he hknown
  | @beginFunction name params hq =>
    subst hq
    rw [Engine.movesOf, Request.emit, Emit.map_apply]
    exact Emit.beginFunction_phased rfl params e he
  | @declareLocal f name type hq =>
    subst hq
    rw [Engine.movesOf, Request.emit, Emit.map_apply]
    exact Emit.declareLocal_phased f name type e
  | finalize hq =>
    subst hq
    rw [Engine.movesOf, Request.emit, Emit.map_apply, Emit.finalize_run]
    refine .idle e fun m hm => ?_
    obtain ⟨f, -, rfl⟩ := List.mem_map.mp hm
    rfl

/-! ## Runs -/

namespace Engine

theorem Stocked.serveAll {e : Engine} (he : e.Stocked) (qs : List Request) :
    (e.serveAll qs).Stocked := by
  induction qs generalizing e with
  | nil => exact he
  | cons q qs ih => exact ih ((q.phased e he).stocked he)

end Engine

end Assembly
