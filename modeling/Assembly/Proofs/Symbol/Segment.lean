import Assembly.Proofs.Engine.Move
import Assembly.Proofs.Engine.Reference

/-!
# What moves add to a program

Storage, routines and counters are the stock of an engine.  The stock after moves is decided
by the stock before them, whatever else there is, and so are the symbols.

A label of the program names storage, a function, a routine, or the entry point.  Lines that
moves emit have no labels, which is an invariant, `Unlabelled`: so a label comes with storage,
with a function that is entered, or with a routine that joins the program.  `count_labels_make`
counts them.
-/

namespace Assembly

/-! ## Stock and symbols -/

structure Stock where
  bss : List Reservation
  data : List Datum
  builtins : List Line
  literals : Nat
  printBuffers : Nat
  printIntAdded : Bool
  printFloatAdded : Bool

/-- The stock after a move. -/
def Stock.note (t : Target) (s : Stock) : Move → Stock
  | .reserve r => { s with bss := s.bss ++ [r] }
  | .store d => { s with data := s.data ++ [d] }
  | .countLiteral => { s with literals := s.literals + 1 }
  | .countPrint => { s with printBuffers := s.printBuffers + 1 }
  | .link .printInt =>
    { s with builtins := s.builtins ++ Builtin.printInt.code t, printIntAdded := true }
  | .link .printFloat =>
    { s with builtins := s.builtins ++ Builtin.printFloat.code t, printFloatAdded := true }
  | _ => s

namespace Engine

def stock (e : Engine) : Stock :=
  ⟨e.bss, e.data, e.builtins, e.literals, e.printBuffers, e.printIntAdded, e.printFloatAdded⟩

theorem make_stock (e : Engine) (m : Move) : (e.make m).stock = e.stock.note e.target m := by
  cases m with
  | instr | raw => simp only [make, addLine]; split <;> rfl
  | define => simp only [make, addSymbol]; split <;> rfl
  | link b => cases b <;> rfl
  | take c =>
    rw [make]
    obtain h | ⟨a, g, -, h | h⟩ := e.take_cases c
    · rw [h]; rfl
    · rw [h]; rfl
    · rw [h]; rfl
  | enter => simp only [make, enter]; split <;> rfl
  | leave => simp only [make, leave]; split <;> rfl
  | _ => rfl

theorem makeAll_stock (e : Engine) (ms : List Move) :
    (e.makeAll ms).stock = ms.foldl (Stock.note e.target) e.stock := by
  induction ms generalizing e with
  | nil => rfl
  | cons m ms ih => rw [makeAll_cons, ih, make_stock, (e.make_fixed m).1, List.foldl_cons]

theorem stock_makeAll_instrs (e : Engine) (is : List Instr) :
    (e.makeAll (is.map .instr)).stock = e.stock := by
  induction is generalizing e with
  | nil => rfl
  | cons i is ih => rw [List.map_cons, makeAll_cons, ih, make_stock]; rfl

theorem hasBuiltin_make (e : Engine) (m : Move) (b : Builtin) :
    (e.make m).hasBuiltin b = true ↔ e.hasBuiltin b = true ∨ m = .link b := by
  have hint : (e.make m).printIntAdded = (e.stock.note e.target m).printIntAdded :=
    congrArg Stock.printIntAdded (e.make_stock m)
  have hfloat : (e.make m).printFloatAdded = (e.stock.note e.target m).printFloatAdded :=
    congrArg Stock.printFloatAdded (e.make_stock m)
  cases m with
  | link c => cases b <;> cases c <;> simp [hasBuiltin, hint, hfloat, Stock.note, stock]
  | _ => cases b <;> simp [hasBuiltin, hint, hfloat, Stock.note, stock]

theorem hasBuiltin_makeAll (e : Engine) (ms : List Move) (b : Builtin) :
    (e.makeAll ms).hasBuiltin b = true ↔ e.hasBuiltin b = true ∨ .link b ∈ ms := by
  induction ms generalizing e with
  | nil => simp
  | cons m ms ih => rw [makeAll_cons, ih, hasBuiltin_make, List.mem_cons, or_assoc, @eq_comm _ m]

theorem defines_make (e : Engine) (m : Move) (name : Text) :
    (e.make m).defines name = true ↔ e.defines name = true ∨ m = .define name := by
  have hsame : ∀ e' : Engine, e'.symbols = e.symbols → m ≠ .define name →
      (e'.defines name = true ↔ e.defines name = true ∨ m = .define name) := by
    intro e' hsymbols hm
    rw [defines, hsymbols]
    simp [hm, defines]
  cases m with
  | define other =>
    simp only [make, addSymbol]
    by_cases hd : e.defines other = true
    · rw [if_pos hd]
      constructor
      · exact .inl
      · rintro (h | h)
        · exact h
        · cases h
          exact hd
    · rw [if_neg hd]
      simp only [defines, List.contains_eq_mem, decide_eq_true_eq, List.mem_append,
        List.mem_singleton, Move.define.injEq]
      rw [@eq_comm _ name]
  | instr | raw => simp only [make, addLine]; split <;> exact hsame _ rfl (by simp)
  | link b => cases b <;> exact hsame _ rfl (by simp)
  | take c =>
    rw [make]
    obtain h | ⟨a, g, -, h | h⟩ := e.take_cases c
    · rw [h]; exact hsame _ rfl (by simp)
    · rw [h]; exact hsame _ rfl (by simp)
    · rw [h]; exact hsame _ rfl (by simp)
  | enter => simp only [make, enter]; split <;> exact hsame _ rfl (by simp)
  | leave => simp only [make, leave]; split <;> exact hsame _ rfl (by simp)
  | _ => exact hsame _ rfl (by simp)

theorem defines_makeAll (e : Engine) (ms : List Move) (name : Text) :
    (e.makeAll ms).defines name = true ↔ e.defines name = true ∨ .define name ∈ ms := by
  induction ms generalizing e with
  | nil => simp
  | cons m ms ih =>
    rw [makeAll_cons, ih, defines_make, List.mem_cons, or_assoc, @eq_comm _ m]

end Engine

/-! ## Labels -/

def Line.label? : Line → Option Text
  | label name => some name
  | _ => none

/-- The labels that lines define. -/
def lineLabels (ls : List Line) : List Text := ls.filterMap Line.label?

@[simp] theorem lineLabels_append (ls ks : List Line) :
    lineLabels (ls ++ ks) = lineLabels ls ++ lineLabels ks := List.filterMap_append

/-- Whether a label can be referred to from everywhere; one that starts with a dot belongs to
the routine around it. -/
def isGlobalLabel (name : Text) : Bool := name.head? ≠ some 46

/-- The labels that come with a move. -/
def Move.labels : Move → List Text
  | reserve r => [r.name]
  | store d => [d.name]
  | link b => [b.label]
  | enter name _ => [name]
  | _ => []

theorem Builtin.lineLabels_code (b : Builtin) (t : Target) :
    (lineLabels (b.code t)).filter isGlobalLabel = [b.label] := by
  cases b <;> cases t <;> decide +kernel

theorem Routine.lineLabels_enter (t : Target) (name : Text) :
    lineLabels (Routine.enter t name) = [name] := rfl

theorem Frame.lineLabels_code (t : Target) (f : Frame) :
    lineLabels (f.code t) = lineLabels f.lines := by
  have hpops : lineLabels (f.saved.map fun r => Line.op .pop [.reg r]) = [] := by
    induction f.saved with
    | nil => rfl
    | cons r rs ih => exact ih
  have hleave : lineLabels (Routine.leave t) = [] := rfl
  rw [Frame.code, lineLabels_append, lineLabels_append, lineLabels_append, hpops, hleave]
  split <;> simp [lineLabels, Line.label?, Line.op]

namespace Engine

/-- The labels of the program: those of its storage, its functions, its routines and its
entry code, and the entry point. -/
def labels (e : Engine) : List Text :=
  e.bss.map (·.name) ++ e.data.map (·.name) ++ lineLabels (e.funcs ++ e.text) ++
    (lineLabels e.builtins).filter isGlobalLabel ++ [e.target.entryPoint]

/-- The code that moves have emitted outside of the function segment. -/
def loose (e : Engine) : List Line := e.text ++ e.current.toList.flatMap Frame.lines

def Unlabelled (e : Engine) : Prop := lineLabels e.loose = []

theorem unlabelled_new (t : Target) (strict : Bool) : (new t strict).Unlabelled := rfl

theorem lineLabels_noteClobber (f : Frame) (r : Text) :
    lineLabels (f.noteClobber r).lines = lineLabels f.lines := by
  rw [Frame.noteClobber]
  split <;> rfl

theorem Unlabelled.addLine {e : Engine} (h : e.Unlabelled) {l : Line} (hl : l.label? = none) :
    (e.addLine l).Unlabelled := by
  have hline : lineLabels [l] = [] := by simp [lineLabels, hl]
  unfold Unlabelled loose Engine.addLine at *
  cases hc : e.current with
  | none => simp_all
  | some f => simp_all [Frame.addLine]

theorem Unlabelled.make {e : Engine} (h : e.Unlabelled) (m : Move) : (e.make m).Unlabelled := by
  cases m with
  | instr i => exact h.addLine rfl
  | raw t => exact h.addLine rfl
  | define => simp only [Engine.make, addSymbol]; split <;> exact h
  | link b => cases b <;> exact h
  | take c =>
    rw [Engine.make]
    obtain hs | ⟨a, g, -, hs | hs⟩ := e.take_cases c
    · rw [hs]; exact h
    · rw [hs]; exact h
    · rw [hs]
      unfold Unlabelled loose at *
      cases hc : e.current with
      | none => simp_all
      | some f => simp_all [lineLabels_noteClobber]
  | enter name params =>
    simp only [Engine.make, Engine.enter]
    split
    · exact h
    · simp_all [Unlabelled, loose, Frame.new]
  | addLocal | cache =>
    unfold Unlabelled loose at *
    cases hc : e.current with
    | none => simp_all [Engine.make, mapCurrent]
    | some f => simp_all [Engine.make, mapCurrent, Frame.addLocal, Frame.cache]
  | leave =>
    simp only [Engine.make, Engine.leave]
    split
    · simp_all [Unlabelled, loose]
    · exact h
  | _ => exact h

theorem Unlabelled.makeAll {e : Engine} (h : e.Unlabelled) (ms : List Move) :
    (e.makeAll ms).Unlabelled := by
  induction ms generalizing e with
  | nil => exact h
  | cons m ms ih => exact ih (h.make m)

theorem count_labels_make {e : Engine} (h : e.Unlabelled) (m : Move)
    (henter : ∀ name params, m = .enter name params → e.current = none) (l : Text) :
    (e.make m).labels.count l = e.labels.count l + m.labels.count l := by
  have hline : ∀ k : Line, k.label? = none → (e.addLine k).labels = e.labels := by
    intro k hk
    rw [Engine.addLine]
    cases e.current with
    | none => simp [labels, lineLabels, hk]
    | some f => rfl
  cases m with
  | instr i => rw [make, hline _ rfl]; rfl
  | raw t => rw [make, hline _ rfl]; rfl
  | define => simp only [make, addSymbol]; split <;> rfl
  | reserve r =>
    simp only [make, labels, Move.labels, List.map_append, List.map_cons, List.map_nil,
      List.count_append]
    omega
  | store d =>
    simp only [make, labels, Move.labels, List.map_append, List.map_cons, List.map_nil,
      List.count_append]
    omega
  | link b =>
    have hb := b.lineLabels_code e.target
    cases b with
    | printInt =>
      simp only [make, link, labels, Move.labels, lineLabels_append, List.filter_append, hb,
        List.count_append]
      omega
    | printFloat =>
      simp only [make, link, labels, Move.labels, lineLabels_append, List.filter_append, hb,
        List.count_append]
      omega
  | take c =>
    rw [make]
    obtain hs | ⟨a, g, -, hs | hs⟩ := e.take_cases c
    · rw [hs]; rfl
    · rw [hs]; rfl
    · rw [hs]; rfl
  | enter name params =>
    simp only [make, enter, henter name params rfl, labels, Move.labels, lineLabels_append,
      Routine.lineLabels_enter, List.count_append]
    omega
  | leave =>
    simp only [make, leave]
    cases hc : e.current with
    | none => rfl
    | some f =>
      have hlines : lineLabels f.lines = [] := by
        simp only [Unlabelled, loose, hc, lineLabels_append, List.append_eq_nil_iff] at h
        simpa using h.2
      simp only [labels, Move.labels, lineLabels_append, Frame.lineLabels_code, hlines,
        List.append_nil, List.count_nil]
      rfl
  | _ => rfl

theorem count_labels_makeAll {e : Engine} (h : e.Unlabelled) {ms : List Move}
    (henter : ∀ name params, Move.enter name params ∉ ms) (l : Text) :
    (e.makeAll ms).labels.count l = e.labels.count l + (ms.flatMap Move.labels).count l := by
  induction ms generalizing e with
  | nil => rfl
  | cons m ms ih =>
    have hm : ∀ name params, m = .enter name params → e.current = none := by
      rintro name params rfl
      exact absurd List.mem_cons_self (henter name params)
    have hrest : ∀ name params, Move.enter name params ∉ ms :=
      fun name params hmem => henter name params (List.mem_cons_of_mem m hmem)
    rw [makeAll_cons, ih (h.make m) hrest, count_labels_make h m hm, List.flatMap_cons,
      List.count_append]
    omega

theorem labels_subset_make {e : Engine} (h : e.Unlabelled) (m : Move) :
    e.labels ⊆ (e.make m).labels := by
  by_cases henter : ∀ name params, m = .enter name params → e.current = none
  · intro l hl
    rw [← List.count_pos_iff] at hl ⊢
    rw [count_labels_make h m henter]
    omega
  · -- A function is open, so none is entered.
    obtain ⟨name, params, rfl, hc⟩ : ∃ name params, m = .enter name params ∧ e.current ≠ none := by
      simpa using henter
    obtain ⟨f, hf⟩ := Option.ne_none_iff_exists'.mp hc
    rw [make, enter, hf]
    exact List.Subset.refl _

theorem labels_subset_makeAll {e : Engine} (h : e.Unlabelled) (ms : List Move) :
    e.labels ⊆ (e.makeAll ms).labels := by
  induction ms generalizing e with
  | nil => exact List.Subset.refl _
  | cons m ms ih => exact List.Subset.trans (labels_subset_make h m) (ih (h.make m))

end Engine

/-! ## Lines -/

def Line.references : Line → List Text
  | instr i => i.references
  | _ => []

/-- Lines that are no emitted instructions: labels, raw text, and the code around a function's own
code, which moves registers and the stack and refers to nothing. -/
def Line.isFraming : Line → Bool
  | instr i => i.references.isEmpty && [.push, .pop, .mov, .sub, .ret].contains i.mnemonic
  | _ => true

theorem Line.references_of_isFraming {l : Line} (h : l.isFraming) : l.references = [] := by
  cases l with
  | instr i => simpa [isFraming, references] using (Bool.and_eq_true_iff.mp h).1
  | _ => rfl

theorem Frame.mem_code {t : Target} {f : Frame} {l : Line} (h : l ∈ f.code t) :
    l ∈ f.lines ∨ l.isFraming := by
  rw [Frame.code] at h
  simp only [List.mem_append, List.mem_map] at h
  rcases h with ((h | h) | ⟨r, -, rfl⟩) | h
  · split at h
    · rw [List.mem_singleton.mp h]
      exact .inr rfl
    · cases h
  · exact .inl h
  · exact .inr rfl
  · have hleave : ∀ l ∈ Routine.leave t, l.isFraming := by cases t <;> decide
    exact .inr (hleave l h)

theorem Frame.mem_noteClobber {f : Frame} {r : Text} {l : Line} (h : l ∈ (f.noteClobber r).lines) :
    l ∈ f.lines ∨ l.isFraming := by
  rw [Frame.noteClobber] at h
  split at h
  · exact .inl h
  · rcases List.mem_cons.mp h with rfl | h
    · exact .inr rfl
    · exact .inl h

namespace Engine

/-- All the code there is, that of the open function included. -/
def lines (e : Engine) : List Line := e.funcs ++ e.builtins ++ e.loose

theorem mem_lines_addLine {e : Engine} {k l : Line} (h : l ∈ (e.addLine k).lines) :
    l ∈ e.lines ∨ l = k := by
  rw [Engine.addLine] at h
  cases hc : e.current with
  | none =>
    simp only [hc, lines, loose, List.mem_append, List.mem_singleton] at h ⊢
    grind
  | some f =>
    simp only [hc, lines, loose, Frame.addLine, Option.toList_some, List.flatMap_singleton,
      List.mem_append, List.mem_singleton] at h ⊢
    grind

/-- Where a line comes from: it was there, it frames a function's code, an instruction was emitted,
or a routine was linked. -/
theorem mem_lines_make {e : Engine} {m : Move} {l : Line} (h : l ∈ (e.make m).lines) :
    l ∈ e.lines ∨ l.isFraming ∨ (∃ i, m = .instr i ∧ l = .instr i) ∨
      ∃ b, m = .link b ∧ l ∈ b.code e.target := by
  cases m with
  | instr i =>
    rcases mem_lines_addLine h with h | rfl
    · exact .inl h
    · exact .inr (.inr (.inl ⟨i, rfl, rfl⟩))
  | raw t =>
    rcases mem_lines_addLine h with h | rfl
    · exact .inl h
    · exact .inr (.inl rfl)
  | define => simp only [make, addSymbol] at h; split at h <;> exact .inl h
  | link b =>
    have hlink : l ∈ e.lines ∨ l ∈ b.code e.target := by
      cases b <;> simp only [make, link, lines, loose, List.mem_append] at h ⊢ <;> grind
    exact hlink.imp id fun h => .inr (.inr ⟨b, rfl, h⟩)
  | take c =>
    rw [make] at h
    obtain hs | ⟨a, g, -, hs | hs⟩ := e.take_cases c
    · rw [hs] at h; exact .inl h
    · rw [hs] at h; exact .inl h
    · rw [hs] at h
      cases hc : e.current with
      | none =>
        simp only [hc, lines, loose, Option.map_none] at h ⊢
        exact .inl h
      | some f =>
        simp only [hc, lines, loose, Option.map_some, Option.toList_some, List.flatMap_singleton,
          List.mem_append] at h ⊢
        have hclobber := @Frame.mem_noteClobber f a.reg l
        grind
  | enter name params =>
    simp only [make, enter] at h
    cases hc : e.current with
    | some f =>
      rw [hc] at h
      exact .inl h
    | none =>
      have henter : ∀ k ∈ Routine.enter e.target name, k.isFraming := by
        simp [Routine.enter, Line.op, Line.isFraming, Instr.references]
      simp only [hc, lines, loose, Frame.new, Option.toList_some, Option.toList_none,
        List.flatMap_singleton, List.flatMap_nil, List.mem_append] at h ⊢
      grind
  | addLocal | cache =>
    left
    cases hc : e.current with
    | none => simpa [make, mapCurrent, lines, loose, hc] using h
    | some f => simpa [make, mapCurrent, lines, loose, hc, Frame.addLocal, Frame.cache] using h
  | leave =>
    simp only [make, leave] at h
    cases hc : e.current with
    | none =>
      rw [hc] at h
      exact .inl h
    | some f =>
      have hcode := @Frame.mem_code e.target f l
      simp only [hc, lines, loose, Option.toList_some, Option.toList_none, List.flatMap_singleton,
        List.flatMap_nil, List.mem_append] at h ⊢
      grind
  | _ => exact .inl h

theorem mem_lines_makeAll {e : Engine} {ms : List Move} {l : Line} (h : l ∈ (e.makeAll ms).lines) :
    l ∈ e.lines ∨ l.isFraming ∨ (∃ i, .instr i ∈ ms ∧ l = .instr i) ∨
      ∃ b, .link b ∈ ms ∧ l ∈ b.code e.target := by
  induction ms generalizing e with
  | nil => exact .inl h
  | cons m ms ih =>
    rcases ih h with hfirst | hnone | ⟨i, hi, rfl⟩ | ⟨b, hb, hcode⟩
    · rcases mem_lines_make hfirst with hold | hnone | ⟨i, rfl, rfl⟩ | ⟨b, rfl, hcode⟩
      · exact .inl hold
      · exact .inr (.inl hnone)
      · exact .inr (.inr (.inl ⟨i, List.mem_cons_self, rfl⟩))
      · exact .inr (.inr (.inr ⟨b, List.mem_cons_self, hcode⟩))
    · exact .inr (.inl hnone)
    · exact .inr (.inr (.inl ⟨i, List.mem_cons_of_mem m hi, rfl⟩))
    · rw [(e.make_fixed m).1] at hcode
      exact .inr (.inr (.inr ⟨b, List.mem_cons_of_mem m hb, hcode⟩))

end Engine

end Assembly
