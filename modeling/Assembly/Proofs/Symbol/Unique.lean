import Assembly.Proofs.Engine.Mode
import Assembly.Proofs.Frame.Account
import Assembly.Proofs.Symbol.Issue

/-!
# Labels are distinct

A symbol that a request declares is new in a strict engine, because every label is a symbol.
Nothing is checked the other way round: a name is issued even if a request has declared it
before, and the entry point is no symbol.

So the labels of a program that a strict engine has made are distinct unless a request
declared the entry point or a name that was issued later, and `labels_nodup_iff` says just
this.
-/

namespace Assembly

variable {q : Request} {e : Engine} {ms : List Move} {gs : List GeneratedName}

/-! ## Declarations -/

/-- Whether a move uses up a number or sets a flag. -/
def Move.counts : Move → Bool
  | countLiteral | countPrint | link _ => true
  | _ => false

theorem Engine.issues_makeAll (h : ∀ m ∈ ms, m.counts = false) (g : GeneratedName) (e : Engine) :
    (e.makeAll ms).stock.Issues g ↔ e.stock.Issues g := by
  have hnote : ∀ (t : Target) (s : Stock) (m : Move), m.counts = false →
      ((s.note t m).Issues g ↔ s.Issues g) := by
    intro t s m hm
    cases m <;> first | exact .rfl | cases hm
  induction ms generalizing e with
  | nil => exact .rfl
  | cons m ms ih =>
    have hrest := ih (fun k hk => h k (List.mem_cons_of_mem m hk)) (e.make m)
    have hm := hnote e.target e.stock m (h m List.mem_cons_self)
    rw [← make_stock] at hm
    exact hrest.trans hm

namespace Emit

variable {u : Unit} {name type : Text}

theorem checkType_strict (hs : e.strict = true) (h : (checkType type).Grants e u ms) : ms = [] := by
  rw [Grants, checkType_run] at h
  split at h
  · exact (congrArg Prod.snd h).symm
  · cases h

theorem claimSymbol_strict (hs : e.strict = true) (h : (claimSymbol name).Grants e u ms) :
    e.defines name = false ∧ ms = [.define name] := by
  rw [Grants, claimSymbol_run] at h
  split at h
  · cases h
  · rename_i hd
    exact ⟨Bool.eq_false_iff.mpr hd, (congrArg Prod.snd h).symm⟩

theorem checkParams_strict (hs : e.strict = true) {params : List Param}
    {words : Param → EmitError → EmitError}
    (h : (params.forM fun p => (checkType p.type).rewording (words p)).Grants e u ms) : ms = [] := by
  induction params generalizing e ms with
  | nil => exact (grants_pure.mp h).2
  | cons p params ih =>
    obtain ⟨_, _, hp, _, hrest, rfl⟩ := grants_bind.mp h
    have hnone := checkType_strict hs (grants_rewording.mp hp)
    subst hnone
    exact ih hs hrest

/-- The checks of a declaration that is granted leave the new symbol behind. -/
theorem claim_strict {α : Type} {f : Unit → Emit α} {a : α} (hs : e.strict = true)
    (h : (checkType type >>= fun _ => claimSymbol name >>= f).Grants e a ms) :
    e.defines name = false ∧ ∃ ns, (f ()).Grants (e.make (.define name)) a ns ∧
      ms = .define name :: ns := by
  obtain ⟨_, _, hcheck, _, hrest, rfl⟩ := grants_bind.mp h
  cases checkType_strict hs hcheck
  obtain ⟨_, _, hclaim, ns, hlast, rfl⟩ := grants_bind.mp hrest
  obtain ⟨hnew, rfl⟩ := claimSymbol_strict hs hclaim
  exact ⟨hnew, ns, hlast, rfl⟩

theorem claimFunction_strict {params : List Param} (hs : e.strict = true)
    (h : (claimFunction name params).Grants e u ms) :
    e.defines name = false ∧ ms = [.define name] := by
  obtain ⟨_, _, hclaim, _, hparams, rfl⟩ := grants_bind.mp h
  obtain ⟨hnew, rfl⟩ := claimSymbol_strict hs hclaim
  have hs' : (e.make (.define name)).strict = true := (e.make_mode _).1.trans hs
  rw [checkParams_strict hs' hparams]
  exact ⟨hnew, rfl⟩

end Emit

/-- A strict engine that grants a declaration defines a new symbol and gives it one label. -/
theorem Engine.declaration_moves (hs : e.strict = true) {name : Text} (hq : q.declares = some name)
    {r : Reply} (h : e.reply q = .ok r) :
    e.defines name = false ∧ .define name ∈ e.movesOf q ∧
      (e.movesOf q).flatMap Move.labels = [name] ∧ ∀ m ∈ e.movesOf q, m.counts = false := by
  have hgrants : q.emit.Grants e r (e.movesOf q) := Prod.ext h rfl
  generalize e.movesOf q = ms at hgrants ⊢
  cases q with
  | declareGlobal name type =>
    cases hq
    obtain ⟨v, hv, -⟩ := Emit.grants_map.mp hgrants
    obtain ⟨hnew, ns, hns, rfl⟩ := Emit.claim_strict hs hv
    simp only [Emit.grants_read_bind, Emit.move, Emit.grants_moves_bind, Emit.grants_pure] at hns
    obtain ⟨_, ⟨-, rfl⟩, rfl⟩ := hns
    exact ⟨hnew, by simp, rfl, by simp [Move.counts]⟩
  | declareConst name lit type =>
    cases hq
    obtain ⟨v, hv, -⟩ := Emit.grants_map.mp hgrants
    simp only [Emit.declareConst, Emit.grants_ite, Emit.grants_throw_bind, Emit.grants_read_bind,
      if_false_left] at hv
    obtain ⟨hnew, ns, hns, rfl⟩ := Emit.claim_strict hs hv.2
    simp only [Emit.move, Emit.grants_moves_bind, Emit.grants_pure] at hns
    obtain ⟨_, ⟨-, rfl⟩, rfl⟩ := hns
    exact ⟨hnew, by simp, rfl, by simp [Move.counts]⟩
  | beginFunction name params =>
    cases hq
    obtain ⟨f, hf, -⟩ := Emit.grants_map.mp hgrants
    rw [Emit.Grants, Emit.beginFunction_run] at hf
    split at hf
    · cases hf
    · obtain ⟨_, _, hclaim, _, henter, rfl⟩ := Emit.grants_bind.mp hf
      obtain ⟨hnew, rfl⟩ := Emit.claimFunction_strict hs hclaim
      rw [Emit.Grants, Emit.enterFunction_run] at henter
      cases henter
      exact ⟨hnew, by simp, rfl, by simp [Move.counts]⟩
  | _ => cases hq

/-! ## Runs -/

namespace Engine

/-- The labels that a run adds on its own, in requests that declare nothing. -/
def generated (e : Engine) : List Request → List Text
  | [] => []
  | q :: qs =>
    (if q.declares.isNone then (e.movesOf q).flatMap Move.labels else []) ++
      (e.serve q).generated qs

/-- What is known of the labels of a strict engine: the symbols that were declared, the names
that were issued, and the entry point. -/
structure Catalog (e : Engine) (ds : List Text) (gs : List GeneratedName) : Prop where
  stocked : e.Stocked
  issued : e.stock.Issued gs
  labels : e.labels.Perm (ds ++ gs.map GeneratedName.text ++ [e.target.entryPoint])
  defined : ∀ l ∈ ds ++ gs.map GeneratedName.text, e.defines l = true
  distinct : ds.Nodup

theorem catalog_new (t : Target) (strict : Bool) : (new t strict).Catalog [] [] :=
  ⟨stocked_new t strict, issued_new t strict, .refl _, by simp, List.nodup_nil⟩

namespace Catalog

variable {ds : List Text}

theorem declare (c : e.Catalog ds gs) (hs : e.strict = true) {name : Text}
    (hq : q.declares = some name) {r : Reply} (h : e.reply q = .ok r) :
    (e.serve q).Catalog (ds ++ [name]) gs := by
  obtain ⟨hnew, hdefine, hlabels, hcounts⟩ := declaration_moves hs hq h
  have hphased := q.phased e c.stocked
  refine ⟨hphased.stocked c.stocked, ?_, ?_, fun l hl => ?_, ?_⟩
  · have hissued := c.issued.same fun g => issues_makeAll hcounts g e
    rwa [List.append_nil] at hissued
  · have hperm := (hphased.perm_labels c.stocked.unlabelled).trans (c.labels.append_right _)
    rw [hlabels] at hperm
    refine hperm.trans ?_
    rw [serve_target, List.perm_iff_count]
    intro l
    simp only [List.count_append]
    omega
  · rw [serve, defines_makeAll]
    simp only [List.mem_append, List.mem_singleton] at hl
    rcases hl with (hl | rfl) | hl
    · exact .inl (c.defined l (List.mem_append_left _ hl))
    · exact .inr hdefine
    · exact .inl (c.defined l (List.mem_append_right _ hl))
  · -- A symbol that was declared before is defined, and the new one was not.
    refine List.Nodup.append c.distinct (List.nodup_singleton name) fun l hl hname => ?_
    rw [List.mem_singleton.mp hname] at hl
    rw [c.defined name (List.mem_append_left _ hl)] at hnew
    cases hnew

theorem issue (c : e.Catalog ds gs) (hq : q.declares = none) :
    ∃ new : List GeneratedName, (e.serve q).Catalog ds (gs ++ new) ∧
      ((e.movesOf q).flatMap Move.labels).Perm (new.map GeneratedName.text) := by
  have hphased := q.phased e c.stocked
  obtain ⟨us, new, hus, hdefine, hlabels, hissued⟩ := hphased.issues c.issued
  have hnil : us = [] := by
    rw [List.eq_nil_iff_forall_not_mem]
    intro l hl
    have hdeclared := hus l hl
    rw [hq] at hdeclared
    cases hdeclared
  rw [hnil, List.nil_append] at hlabels
  refine ⟨new, ⟨hphased.stocked c.stocked, hissued, ?_, fun l hl => ?_, c.distinct⟩, hlabels⟩
  · have hperm := (hphased.perm_labels c.stocked.unlabelled).trans (c.labels.append hlabels)
    refine hperm.trans ?_
    rw [serve_target, List.perm_iff_count]
    intro l
    simp only [List.map_append, List.count_append]
    omega
  · rw [serve, defines_makeAll]
    rw [List.map_append, ← List.append_assoc] at hl
    rcases List.mem_append.mp hl with hl | hl
    · exact .inl (c.defined l hl)
    · obtain ⟨g, hg, rfl⟩ := List.mem_map.mp hl
      exact .inr (hdefine g hg)

theorem run (c : e.Catalog ds gs) (hs : e.Strict) {qs : List Request} (h : e.grantsAll qs = true) :
    ∃ new : List GeneratedName,
      (e.serveAll qs).Catalog (ds ++ qs.filterMap Request.declares) (gs ++ new) ∧
      (e.generated qs).Perm (new.map GeneratedName.text) := by
  induction qs generalizing e ds gs with
  | nil =>
    refine ⟨[], ?_, .refl _⟩
    rw [List.filterMap_nil, List.append_nil, List.append_nil]
    exact c
  | cons q qs ih =>
    obtain ⟨hq, hrest⟩ := (Bool.and_eq_true ..).mp h
    have hs' : (e.serve q).Strict := hs.makeAll _
    cases hd : q.declares with
    | some name =>
      cases hr : e.reply q with
      | error x =>
        rw [hr] at hq
        cases hq
      | ok r =>
        obtain ⟨new, hc, hgen⟩ := ih (c.declare hs.rules hd hr) hs' hrest
        refine ⟨new, ?_, ?_⟩
        · rw [List.filterMap_cons_some hd, List.append_cons]
          exact hc
        · rw [generated, hd]
          exact hgen
    | none =>
      obtain ⟨new, hc, hnew⟩ := c.issue hd
      obtain ⟨new', hc', hgen⟩ := ih hc hs' hrest
      refine ⟨new ++ new', ?_, ?_⟩
      · rw [List.filterMap_cons_none hd, ← List.append_assoc]
        exact hc'
      · rw [generated, hd, List.map_append]
        exact hnew.append hgen

end Catalog

theorem entryPoint_not_generated (t : Target) : ¬ IsGenerated t.entryPoint := by
  cases t <;> decide

/-- The labels of a program that a strict engine made are the symbols that were declared, the
names that were issued, and the entry point.  They are distinct just if no request declared
the entry point or a name that the engine issued in the run. -/
theorem labels_nodup_iff (t : Target) (qs : List Request) (h : (new t true).grantsAll qs = true) :
    ((new t true).serveAll qs).labels.Perm
        (qs.filterMap Request.declares ++ (new t true).generated qs ++ [t.entryPoint]) ∧
      (∀ l ∈ (new t true).generated qs, IsGenerated l) ∧
      (((new t true).serveAll qs).labels.Nodup ↔ ∀ name ∈ qs.filterMap Request.declares,
        name ∉ (new t true).generated qs ∧ name ≠ t.entryPoint) := by
  obtain ⟨gs, c, hgen⟩ := (catalog_new t true).run (strict_new t) h
  have hlabels := c.labels
  rw [List.nil_append, List.nil_append, serveAll_target] at hlabels
  have hperm := hlabels.trans ((hgen.symm.append_left _).append_right _)
  have hform : ∀ l ∈ (new t true).generated qs, IsGenerated l := by
    intro l hl
    obtain ⟨g, -, rfl⟩ := List.mem_map.mp (hgen.mem_iff.mp hl)
    exact ⟨g, rfl⟩
  have hdistinct : (qs.filterMap Request.declares).Nodup := c.distinct
  have hissued : ((new t true).generated qs).Nodup := hgen.nodup_iff.mpr c.issued.nodup
  refine ⟨hperm, hform, ?_⟩
  rw [hperm.nodup_iff, List.nodup_append, List.nodup_append]
  constructor
  · rintro ⟨⟨-, -, hclash⟩, -, hentry⟩ name hname
    constructor
    · intro hgenerated
      exact hclash name hname name hgenerated rfl
    · exact hentry name (List.mem_append_left _ hname) _ (List.mem_singleton.mpr rfl)
  · intro hfree
    refine ⟨⟨hdistinct, hissued, ?_⟩, List.nodup_singleton _, ?_⟩
    · rintro name hname l hl rfl
      exact (hfree name hname).1 hl
    · intro l hl k hk
      rw [List.mem_singleton.mp hk]
      rcases List.mem_append.mp hl with hl | hl
      · exact (hfree l hl).2
      · rintro rfl
        exact entryPoint_not_generated t (hform _ hl)

/-- A variable with the name of what `print_int` writes last. -/
def newlineRun : List Request := [.declareGlobal "newline" "int32", .print (.ofInt 5)]

/-- Labels of all kinds. -/
def mixedRun : List Request :=
  [.declareGlobal "x" "int32", .declareConst "greeting" (.ofText "hi") "",
    .load (.ofIntAs 1 "double") "double", .print (.ofText "hi"), .print (.ofInt 5),
    .beginFunction "f" [], .endFunction ⟨0, "f"⟩]

/-- Two labels of one name, though every request was granted, and a run without such a name. -/
theorem labels_nodup_iff_newlineRun :
    ((new .bits64 true).grantsAll newlineRun = true ∧
        ¬ ((new .bits64 true).serveAll newlineRun).labels.Nodup) ∧
      (new .bits64 true).grantsAll mixedRun = true ∧
        ((new .bits64 true).serveAll mixedRun).labels.Nodup := by
  have hnewline : (new .bits64 true).grantsAll newlineRun = true := by decide +kernel
  have hmixed : (new .bits64 true).grantsAll mixedRun = true := by decide +kernel
  refine ⟨⟨hnewline, fun hnodup => ?_⟩, hmixed, ?_⟩
  · have hfree := (labels_nodup_iff .bits64 newlineRun hnewline).2.2.mp hnodup
    exact (hfree "newline" (by decide +kernel)).1 (by decide +kernel)
  · refine (labels_nodup_iff .bits64 mixedRun hmixed).2.2.mpr ?_
    decide +kernel

end Engine

end Assembly
