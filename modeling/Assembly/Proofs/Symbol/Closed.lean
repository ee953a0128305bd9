import Assembly.Proofs.Symbol.Issue

/-!
# Generated names are defined, and defined once

Take a run in which no request brings a name that the engine might make up.  Then the names
that the engine does make up stand in the program once each, and code that refers to one finds
it there.  The only way to refer to a name that is missing is to call it.

The stock is in order, `Stock.InOrder`, after each phase: routines, their storage and the
numbered constants agree with flags and counters.  The second invariant, `Engine.Closed`, is
about the lines that code is made of.
-/

namespace Assembly

/-- The names that a request brings into the program, apart from the function that it calls. -/
def Request.supplied (q : Request) : List Text := q.declares.toList ++ q.operandNames

theorem not_generated_of_brought {q : Request} (h : ∀ name ∈ q.supplied, ¬ IsGenerated name)
    {l : Text} (hl : l ∈ q.brought) : ¬ IsGenerated l := by
  have hregs : ∀ r ∈ addressRegs, ¬ IsGenerated r := by decide
  rcases List.mem_append.mp hl with hl | hl
  · exact hregs l hl
  · exact h l (List.mem_append_right _ hl)

theorem not_generated_of_declares {q : Request} (h : ∀ name ∈ q.supplied, ¬ IsGenerated name)
    {name : Text} (hq : q.declares = some name) : ¬ IsGenerated name :=
  h name (List.mem_append_left _ (by rw [hq]; exact List.mem_singleton.mpr rfl))

/-! ## The stock -/

namespace Stock

/-- How often a name stands for initialized storage. -/
def stored (s : Stock) (g : GeneratedName) : Nat := (s.data.map (·.name)).count g.text

/-- Routines, their storage and the numbered constants agree with flags and counters. -/
structure InOrder (s : Stock) (t : Target) : Prop where
  order : s.printFloatAdded = true → s.printIntAdded = true
  builtins : s.builtins = (if s.printIntAdded then Builtin.printInt.code t else []) ++
    (if s.printFloatAdded then Builtin.printFloat.code t else [])
  buffers : s.bss.filter (fun r => IsGenerated r.name) =
    (if s.printIntAdded then [⟨"print_buffer", 32⟩] else []) ++
      (if s.printFloatAdded then [⟨"float_buf", 64⟩] else [])
  newline : s.data.filter (fun d => d.name = GeneratedName.newline.text) =
    if s.printIntAdded then [⟨"newline", .db, .number "10"⟩] else []
  literals : ∀ n, s.stored (.floatLiteral n) + s.stored (.textLiteral n) =
    if n < s.literals then 1 else 0
  prints : ∀ n, s.stored (.printedText n) = if n < s.printBuffers then 1 else 0

variable {s : Stock} {t : Target}

theorem InOrder.reserve (h : s.InOrder t) {r : Reservation} (hr : ¬ IsGenerated r.name) :
    (s.note t (.reserve r)).InOrder t := by
  refine { h with buffers := ?_ }
  rw [note, List.filter_append, h.buffers]
  simp [hr]

theorem stored_store (d : Datum) (g : GeneratedName) :
    (s.note t (.store d)).stored g = s.stored g + if d.name = g.text then 1 else 0 := by
  simp only [stored, note, List.map_append, List.map_cons, List.map_nil, List.count_append,
    List.count_singleton, beq_iff_eq]

theorem InOrder.store (h : s.InOrder t) {d : Datum} (hd : ¬ IsGenerated d.name) :
    (s.note t (.store d)).InOrder t := by
  have hname : ∀ g : GeneratedName, d.name ≠ g.text := fun g hg => hd ⟨g, hg.symm⟩
  refine { h with newline := ?_, literals := fun n => ?_, prints := fun n => ?_ }
  · rw [note, List.filter_append, h.newline]
    simp [hname]
  · rw [stored_store, stored_store, if_neg (hname _), if_neg (hname _)]
    exact h.literals n
  · rw [stored_store, if_neg (hname _)]
    exact h.prints n

theorem filter_newline_store {d : Datum} (h : d.name ≠ GeneratedName.newline.text) :
    (s.note t (.store d)).data.filter (fun d => d.name = GeneratedName.newline.text) =
      s.data.filter (fun d => d.name = GeneratedName.newline.text) := by
  simp [note, h]

/-- A number is used up for a literal, and its datum is stored. -/
theorem InOrder.literal (h : s.InOrder t) {d : Datum} {g : GeneratedName} (hd : d.name = g.text)
    (hg : g = .floatLiteral s.literals ∨ g = .textLiteral s.literals) :
    ((s.note t .countLiteral).note t (.store d)).InOrder t := by
  have hname : ∀ k : GeneratedName, d.name = k.text ↔ g = k := by
    intro k
    rw [hd, GeneratedName.text_injective.eq_iff]
  refine { h with newline := ?_, literals := fun n => ?_, prints := fun n => ?_ }
  · rw [filter_newline_store]
    · exact h.newline
    · rw [Ne, hname]
      rcases hg with rfl | rfl <;> exact GeneratedName.noConfusion
  · have hold : s.stored (.floatLiteral n) + s.stored (.textLiteral n) =
        if n < s.literals then 1 else 0 := h.literals n
    rw [stored_store, stored_store, if_congr (hname _) rfl rfl, if_congr (hname _) rfl rfl]
    show s.stored _ + _ + (s.stored _ + _) = if n < s.literals + 1 then 1 else 0
    rcases hg with rfl | rfl
    · simp only [GeneratedName.floatLiteral.injEq, reduceCtorEq, if_false]
      split at hold <;> split <;> split <;> omega
    · simp only [GeneratedName.textLiteral.injEq, reduceCtorEq, if_false]
      split at hold <;> split <;> split <;> omega
  · have hother : ¬ g = .printedText n := by
      rcases hg with rfl | rfl <;> exact GeneratedName.noConfusion
    rw [stored_store, if_neg (fun h => hother ((hname _).mp h))]
    exact h.prints n

/-- A number is used up for a printed text, and its datum is stored. -/
theorem InOrder.printed (h : s.InOrder t) {d : Datum}
    (hd : d.name = (GeneratedName.printedText s.printBuffers).text) :
    ((s.note t .countPrint).note t (.store d)).InOrder t := by
  have hname : ∀ k : GeneratedName, d.name = k.text ↔ .printedText s.printBuffers = k := by
    intro k
    rw [hd, GeneratedName.text_injective.eq_iff]
  refine { h with newline := ?_, literals := fun n => ?_, prints := fun n => ?_ }
  · rw [filter_newline_store]
    · exact h.newline
    · rw [Ne, hname]
      exact GeneratedName.noConfusion
  · rw [stored_store, stored_store, if_neg, if_neg]
    · exact h.literals n
    · rw [hname]
      exact GeneratedName.noConfusion
    · rw [hname]
      exact GeneratedName.noConfusion
  · have hold : s.stored (.printedText n) = if n < s.printBuffers then 1 else 0 := h.prints n
    rw [stored_store, if_congr (hname _) rfl rfl]
    show s.stored _ + _ = if n < s.printBuffers + 1 then 1 else 0
    simp only [GeneratedName.printedText.injEq]
    split at hold <;> split <;> split <;> omega

theorem InOrder.printInt (h : s.InOrder t) (hint : s.printIntAdded = false) :
    ((Emit.joining .printInt).foldl (note t) s).InOrder t := by
  have hfloat : s.printFloatAdded = false := by
    rw [Bool.eq_false_iff]
    intro hfloat
    rw [h.order hfloat] at hint
    cases hint
  let d : Datum := ⟨GeneratedName.newline.text, .db, .number "10"⟩
  have hname : ∀ k : GeneratedName, d.name = k.text ↔ .newline = k := by
    intro k
    show GeneratedName.newline.text = k.text ↔ _
    rw [GeneratedName.text_injective.eq_iff]
  have hstored : ∀ k : GeneratedName, k ≠ .newline →
      ((Emit.joining .printInt).foldl (note t) s).stored k = s.stored k := by
    intro k hk
    show (s.note t (.store d)).stored k = _
    rw [stored_store, if_neg fun h => hk ((hname k).mp h).symm]
    rfl
  refine ⟨fun _ => rfl, ?_, ?_, ?_, fun n => ?_, fun n => ?_⟩
  · show s.builtins ++ Builtin.printInt.code t =
      (if true = true then Builtin.printInt.code t else []) ++
      (if s.printFloatAdded = true then Builtin.printFloat.code t else [])
    simp [h.builtins, hint, hfloat]
  · have hgen : IsGenerated "print_buffer" := ⟨.printBuffer, rfl⟩
    show (s.bss ++ [Reservation.mk "print_buffer" 32]).filter _ =
      (if true = true then [Reservation.mk "print_buffer" 32] else []) ++
        (if s.printFloatAdded = true then [Reservation.mk "float_buf" 64] else [])
    rw [List.filter_append, h.buffers]
    simp [hint, hfloat, hgen]
  · show (s.data ++ [d]).filter _ = if true = true then [d] else []
    rw [List.filter_append, h.newline]
    simp [hint, d]
  · rw [hstored _ GeneratedName.noConfusion, hstored _ GeneratedName.noConfusion]
    exact h.literals n
  · rw [hstored _ GeneratedName.noConfusion]
    exact h.prints n

theorem InOrder.printFloat (h : s.InOrder t) (hint : s.printIntAdded = true)
    (hfloat : s.printFloatAdded = false) :
    ((Emit.joining .printFloat).foldl (note t) s).InOrder t := by
  refine { h with order := fun _ => hint, builtins := ?_, buffers := ?_ }
  · show s.builtins ++ Builtin.printFloat.code t =
      (if s.printIntAdded = true then Builtin.printInt.code t else []) ++
        (if true = true then Builtin.printFloat.code t else [])
    simp [h.builtins, hint, hfloat]
  · have hgen : IsGenerated "float_buf" := ⟨.floatBuffer, rfl⟩
    show (s.bss ++ [Reservation.mk "float_buf" 64]).filter _ =
      (if s.printIntAdded = true then [Reservation.mk "print_buffer" 32] else []) ++
        (if true = true then [Reservation.mk "float_buf" 64] else [])
    rw [List.filter_append, h.buffers]
    simp [hint, hfloat, hgen]

end Stock

variable {q : Request} {e : Engine} {ms : List Move} {gs : List GeneratedName}

theorem Phase.inOrder (h : Phase q e ms) (hfree : ∀ name ∈ q.supplied, ¬ IsGenerated name)
    (ho : e.stock.InOrder e.target) : (e.makeAll ms).stock.InOrder e.target := by
  rw [Engine.makeAll_stock]
  cases h with
  | @idle m hm =>
    rw [List.foldl_cons, List.foldl_nil, Stock.note_of_idle _ _ hm]
    exact ho
  | instr | call | define | enter => exact ho
  | @keep name hq m hm =>
    have hname := not_generated_of_declares hfree hq
    cases m with
    | reserve r => exact ho.reserve (of_decide_eq_true hm ▸ hname)
    | store d => exact ho.store (of_decide_eq_true hm ▸ hname)
    | _ => cases hm
  | literal hg d c => exact ho.literal rfl hg
  | printed c => exact ho.printed rfl
  | @joining b hb hint =>
    cases b with
    | printInt => exact ho.printInt hb
    | printFloat => exact ho.printFloat (hint rfl) hb

/-! ## Labels -/

namespace Engine

/-- The generated names among the labels are those that were issued. -/
structure Accounted (e : Engine) (gs : List GeneratedName) : Prop where
  stocked : e.Stocked
  issued : e.stock.Issued gs
  labels : (e.labels.filter (fun l => IsGenerated l)).Perm (gs.map GeneratedName.text)

theorem accounted_new (t : Target) (strict : Bool) : (new t strict).Accounted [] := by
  refine ⟨stocked_new t strict, issued_new t strict, ?_⟩
  show ([t.entryPoint].filter fun l => IsGenerated l).Perm []
  cases t <;> decide

theorem Accounted.mem_labels (a : e.Accounted gs) {g : GeneratedName} (hg : g ∈ gs) :
    g.text ∈ e.labels :=
  (List.mem_filter.mp (a.labels.mem_iff.mpr (List.mem_map.mpr ⟨g, hg, rfl⟩))).1

end Engine

theorem Phase.accounted (h : Phase q e ms) (hfree : ∀ name ∈ q.supplied, ¬ IsGenerated name)
    (a : e.Accounted gs) : ∃ new, (e.makeAll ms).Accounted (gs ++ new) := by
  obtain ⟨us, new, hus, -, hlabels, hissued⟩ := h.issues a.issued
  refine ⟨new, h.stocked a.stocked, hissued, ?_⟩
  have hdeclared : us.filter (fun l => IsGenerated l) = [] := by
    rw [List.filter_eq_nil_iff]
    intro l hl
    simpa using not_generated_of_declares hfree (hus l hl)
  have hnew : (new.map GeneratedName.text).filter (fun l => IsGenerated l) =
      new.map GeneratedName.text := by
    rw [List.filter_eq_self]
    intro l hl
    obtain ⟨g, -, rfl⟩ := List.mem_map.mp hl
    exact decide_eq_true ⟨g, rfl⟩
  have hperm : (e.makeAll ms).labels.Perm (e.labels ++ ms.flatMap Move.labels) :=
    (Phased.one h).perm_labels a.stocked.unlabelled
  have hfilter := hperm.filter (fun l => IsGenerated l)
  rw [hlabels, List.filter_append, List.filter_append, hdeclared, hnew, List.nil_append] at hfilter
  rw [List.map_append]
  exact hfilter.trans (a.labels.append_right _)

/-! ## References -/

/-- The routine for floating point shares the newline of the other one. -/
theorem Builtin.references_code (b : Builtin) (t : Target) : ∀ l ∈ b.code t, ∀ name ∈ l.references,
    IsGenerated name → name ∈ (Builtin.printInt.names ++ b.names).map GeneratedName.text := by
  cases b <;> cases t <;> decide +kernel

theorem Builtin.eq_of_slot_eq {b : Builtin} {g k : GeneratedName} (hg : g ∈ b.names)
    (h : k.slot = g.slot) : k = g := by
  have hnames : ∀ g ∈ b.names, g.slot = g ∧ ∀ n, g ≠ .floatLiteral n := by
    cases b <;> simp [Builtin.names, GeneratedName.slot]
  obtain ⟨hslot, hnumber⟩ := hnames g hg
  rw [hslot] at h
  cases k with
  | textLiteral n => exact absurd h.symm (hnumber n)
  | _ => exact h

/-- The names of a routine that is there are labels. -/
theorem Engine.Accounted.names_mem_labels (a : e.Accounted gs) {b : Builtin}
    (hb : e.hasBuiltin b = true) : ∀ g ∈ b.names, g.text ∈ e.labels := by
  intro g hg
  have hissues : e.stock.Issues g := by
    have hall : ∀ g ∈ b.names, e.stock.Issues g ↔ e.hasBuiltin b = true := by
      cases b <;> simp [Builtin.names, Stock.Issues, Stock.has, Engine.stock, Engine.hasBuiltin]
    exact (hall g hg).mpr hb
  obtain ⟨k, hk, hslot⟩ := List.mem_map.mp ((a.issued.mem_iff g).mpr hissues)
  have hsame : k = g := Builtin.eq_of_slot_eq hg hslot
  rw [← hsame]
  exact a.mem_labels hk

namespace Engine

/-- A line refers to no generated name that is missing, unless it calls one of the functions. -/
def Closed (e : Engine) (callees : List Text) : Prop :=
  ∀ l ∈ e.lines, ∀ name ∈ l.references, IsGenerated name →
    name ∈ e.labels ∨ (l = .instr ⟨.call, [.sym name]⟩ ∧ name ∈ callees)

end Engine

theorem Phase.closed {callees : List Text} (h : Phase q e ms)
    (hfree : ∀ name ∈ q.supplied, ¬ IsGenerated name)
    (hcallee : ∀ name, q.callee = some name → name ∈ callees) (a : e.Accounted gs)
    (c : e.Closed callees) : (e.makeAll ms).Closed callees := by
  have hstay : e.labels ⊆ (e.makeAll ms).labels :=
    Engine.labels_subset_makeAll a.stocked.unlabelled ms
  intro l hl name hname hgen
  rcases Engine.mem_lines_makeAll hl with hold | hnone | ⟨i, hi, rfl⟩ | ⟨b, hb, hcode⟩
  · exact (c l hold name hname hgen).imp (fun hlabel => hstay hlabel) id
  · rw [Line.references_of_isFraming hnone] at hname
    cases hname
  · rcases h.instr_references hi with hrefs | ⟨callee, hq, rfl⟩
    · rcases hrefs name hname with hbrought | hlabel
      · exact absurd hgen (not_generated_of_brought hfree hbrought)
      · exact .inl (hstay hlabel)
    · have hsame : name = callee := by simpa [Line.references] using hname
      subst hsame
      exact .inr ⟨rfl, hcallee name hq⟩
  · -- A routine refers to names of its own, and to those of the one that it comes after.
    obtain ⟨new, a'⟩ := h.accounted hfree a
    have hlinked : (e.makeAll ms).hasBuiltin b = true := (e.hasBuiltin_makeAll ms b).mpr (.inr hb)
    have hint : (e.makeAll ms).hasBuiltin .printInt = true := by
      cases b with
      | printInt => exact hlinked
      | printFloat => exact (h.stocked a.stocked).order hlinked
    obtain ⟨g, hg, rfl⟩ := List.mem_map.mp (b.references_code _ l hcode name hname hgen)
    rcases List.mem_append.mp hg with hg | hg
    · exact .inl (a'.names_mem_labels hint g hg)
    · exact .inl (a'.names_mem_labels hlinked g hg)

/-! ## Runs -/

namespace Engine

/-- What each phase keeps. -/
structure Tidy (e : Engine) (callees : List Text) : Prop where
  accounted : ∃ gs, e.Accounted gs
  stock : e.stock.InOrder e.target
  closed : e.Closed callees

variable {callees : List Text}

theorem tidy_new (t : Target) (strict : Bool) (callees : List Text) :
    (new t strict).Tidy callees := by
  refine ⟨⟨[], accounted_new t strict⟩, ⟨?_, rfl, rfl, rfl, fun n => rfl, fun n => rfl⟩, ?_⟩
  · intro h
    cases h
  · intro l hl
    cases hl

theorem Tidy.phase (d : e.Tidy callees) (hphase : Phase q e ms)
    (hfree : ∀ name ∈ q.supplied, ¬ IsGenerated name)
    (hcallee : ∀ name, q.callee = some name → name ∈ callees) : (e.makeAll ms).Tidy callees := by
  obtain ⟨gs, a⟩ := d.accounted
  obtain ⟨new, a'⟩ := hphase.accounted hfree a
  refine ⟨⟨gs ++ new, a'⟩, ?_, hphase.closed hfree hcallee a d.closed⟩
  rw [makeAll_target]
  exact hphase.inOrder hfree d.stock

theorem Tidy.serve (d : e.Tidy callees) (hfree : ∀ name ∈ q.supplied, ¬ IsGenerated name)
    (hcallee : ∀ name, q.callee = some name → name ∈ callees) : (e.serve q).Tidy callees := by
  obtain ⟨gs, a⟩ := d.accounted
  have hphase : ∀ {e : Engine} {ms}, Phase q e ms → e.Tidy callees → (e.makeAll ms).Tidy callees :=
    fun hphase d => d.phase hphase hfree hcallee
  exact (q.phased e a.stocked).keeps hphase d

theorem Tidy.serveAll (d : e.Tidy callees) {qs : List Request}
    (hfree : ∀ q ∈ qs, ∀ name ∈ q.supplied, ¬ IsGenerated name)
    (hcallee : ∀ q ∈ qs, ∀ name, q.callee = some name → name ∈ callees) :
    (e.serveAll qs).Tidy callees := by
  induction qs generalizing e with
  | nil => exact d
  | cons q qs ih =>
    have hq : (e.serve q).Tidy callees :=
      d.serve (hfree q List.mem_cons_self) (hcallee q List.mem_cons_self)
    exact ih hq (fun k hk => hfree k (List.mem_cons_of_mem q hk))
      fun k hk => hcallee k (List.mem_cons_of_mem q hk)

theorem labels_subset_serveAll (he : e.Stocked) (qs : List Request) :
    e.labels ⊆ (e.serveAll qs).labels := by
  induction qs generalizing e with
  | nil => exact List.Subset.refl _
  | cons q qs ih =>
    have hserve := labels_subset_makeAll he.unlabelled (e.movesOf q)
    exact List.Subset.trans hserve (ih ((q.phased e he).stocked he))

theorem serveAll_append (e : Engine) (pre post : List Request) :
    e.serveAll (pre ++ post) = (e.serveAll pre).serveAll post := List.foldl_append

/-- The names in an instruction that a request emitted are labels at the end of the run, unless
the request calls a function of this name. -/
theorem instr_references (t : Target) (strict : Bool) {pre post : List Request} {q : Request}
    (hfree : ∀ name ∈ q.supplied, ¬ IsGenerated name) {i : Instr}
    (hi : .instr i ∈ ((new t strict).serveAll pre).movesOf q) :
    ∀ name ∈ i.references, IsGenerated name →
      name ∈ ((new t strict).serveAll (pre ++ q :: post)).labels ∨
        (i = ⟨.call, [.sym name]⟩ ∧ q.callee = some name) := by
  intro name hname hgen
  have he := (stocked_new t strict).serveAll pre
  have hphased := q.phased _ he
  rcases hphased.instr_references he hi with hrefs | ⟨callee, hq, rfl⟩
  · rcases hrefs name hname with hbrought | hlabel
    · exact absurd hgen (not_generated_of_brought hfree hbrought)
    · rw [serveAll_append]
      exact .inl (labels_subset_serveAll (hphased.stocked he) post hlabel)
  · have hsame : name = callee := by simpa using hname
    subst hsame
    exact .inr ⟨rfl, hq⟩

/-- Generated names are defined once, and code refers to none that is missing.

In a run, of either mode and with refusals, in which no request brings a name that the engine
might make up: routines, their storage and the numbered constants agree with flags and
counters; no generated label is there twice; and a generated name that code refers to is a
label, unless a request calls a function of this name. -/
theorem generated_closed (t : Target) (strict : Bool) (qs : List Request)
    (h : ∀ q ∈ qs, ∀ name ∈ q.supplied, ¬ IsGenerated name) :
    ((new t strict).serveAll qs).stock.InOrder t ∧
      (((new t strict).serveAll qs).labels.filter (fun l => IsGenerated l)).Nodup ∧
      ((new t strict).serveAll qs).Closed (qs.filterMap Request.callee) ∧
      ∀ pre q post, qs = pre ++ q :: post →
        ∀ i, .instr i ∈ ((new t strict).serveAll pre).movesOf q →
          ∀ name ∈ i.references, IsGenerated name →
            name ∈ ((new t strict).serveAll qs).labels ∨
              (i = ⟨.call, [.sym name]⟩ ∧ q.callee = some name) := by
  have hcallee : ∀ q ∈ qs, ∀ name, q.callee = some name → name ∈ qs.filterMap Request.callee :=
    fun q hq name hname => List.mem_filterMap.mpr ⟨q, hq, hname⟩
  have d := (tidy_new t strict (qs.filterMap Request.callee)).serveAll h hcallee
  obtain ⟨gs, a⟩ := d.accounted
  have hstock := d.stock
  rw [serveAll_target] at hstock
  refine ⟨hstock, a.labels.nodup_iff.mpr a.issued.nodup, d.closed, ?_⟩
  rintro pre q post rfl i hi
  have hfree := h q (List.mem_append_right _ List.mem_cons_self)
  exact instr_references t strict hfree hi

/-- A call of a routine before it is there, a text, a number, a refusal and a literal. -/
def printingRun : List Request :=
  [.declareGlobal "x" "int32", .call "print_float" [], .print (.ofText "hi"),
    .print (.ofGlobal "x" "int32"), .load (.ofText "hi") "int32", .load (.ofIntAs 1 "double") "double"]

theorem generated_closed_printingRun :
    (∀ q ∈ printingRun, ∀ name ∈ q.supplied, ¬ IsGenerated name) ∧
      ((new .bits64 false).serveAll printingRun).stock.InOrder .bits64 ∧
      ((new .bits64 false).serveAll printingRun).Closed ["print_float"] ∧
      Text.ofString "print_float" ∉ ((new .bits64 false).serveAll printingRun).labels := by
  have hfree : ∀ q ∈ printingRun, ∀ name ∈ q.supplied, ¬ IsGenerated name := by decide +kernel
  have hrun := generated_closed .bits64 false printingRun hfree
  exact ⟨hfree, hrun.1, hrun.2.2.1, by decide +kernel⟩

end Engine

end Assembly
