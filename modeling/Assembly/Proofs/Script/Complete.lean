import Assembly.Proofs.Script.Operand

/-!
# Reading what is printed

The text of a script is read as the script, up to positions, if no statement takes the one behind
it for a part of itself.
-/

namespace Assembly.Script

namespace Grammar

open Script.Parser

variable {ts rest : List Token} {ws : List Word}

/-! ## Statements -/

def stmtParsers : List (Parser StmtForm) :=
  [ constDecl
  , globalDecl
  , localDecl
  , binding
  , StmtForm.call <$> call
  , do word "print"; return .print (← term)
  , asmCode
  , freeing
  , do word "return"; return .ret (← term)
  , exiting ]

def stmtKeywords : List Text :=
  ["const", "global", "local", "let", "call", "print", "asm", "free", "return", "exit"]

theorem stmtParsers_start : List.Forall₂ Starts stmtParsers stmtKeywords :=
  .cons (Starts.node (.word_bind _ _)) <| .cons (Starts.node (.word_bind _ _)) <|
    .cons (Starts.node (.word_bind _ _)) <| .cons (Starts.node (.word_bind _ _)) <|
    .cons (Starts.map (Starts.node (.word_bind _ _)) _) <| .cons (.word_bind _ _) <|
    .cons (Starts.node (.word_bind _ _)) <| .cons (Starts.node (.word_bind _ _)) <|
    .cons (.word_bind _ _) <| .cons (Starts.node (.word_bind _ _)) .nil

theorem stmt_refuses (h : ∀ t ∈ ts.head?, t.value ∉ stmtKeywords) : Refuses stmt ts :=
  .node (.here_bind fun _ => .bind (.choice (balks_of_starts stmtParsers_start h)))

theorem valued_accepts {w : Text} {x : Term} (hx : x.isWritable)
    (h : Shows (.keyword w :: x.words) ts rest) (f : Term → StmtForm) :
    Accepts (do word w; return f (← term)) (fun y => ∃ v, y = f v ∧ v.bare = x.bare) ts rest := by
  obtain ⟨mid, hword, h⟩ := word_accepts h
  exact .bind hword fun _ _ => .bind (term_accepts hx h) fun v hv => .pure ⟨v, rfl, hv⟩ _

theorem typed_accepts {w n t : Text} (h : Shows [.keyword w, .name n, .name t] ts rest)
    (f : Text → Text → StmtForm) :
    Accepts (do word w; let name ← aName; let type ← aName; return f name type) (· = f n t) ts rest := by
  obtain ⟨mid₁, hword, h⟩ := word_accepts h
  obtain ⟨mid₂, hname, h⟩ := name_accepts h
  obtain ⟨mid₃, htype, h⟩ := name_accepts h
  obtain rfl := h.of_nil
  exact .bind hword fun _ _ => .bind (hname.need _) fun v hv => .bind (htype.need _) fun ty hty =>
    .pure (by rw [hv, hty]) _

theorem type_accepts {type : Option Text} (h : Shows (type.toList.map Word.name) ts rest)
    (hrest : ∀ t ∈ rest.head?, t.kind ≠ .name) : Accepts (optional name) (· = type) ts rest := by
  cases type with
  | none =>
    obtain rfl := h.of_nil
    exact Refuses.optional (.ofKind hrest)
  | some v =>
    obtain ⟨mid, hname, h⟩ := name_accepts h
    obtain rfl := h.of_nil
    refine hname.optional.mono fun o ho => ?_
    obtain ⟨w, rfl, rfl⟩ := ho
    rfl

theorem constDecl_accepts {name : Text} {type : Option Text} {value : Term} (hvalue : value.isWritable)
    (h : Shows (StmtForm.const name type value).words ts rest) :
    Accepts constDecl (fun y => y.bare = (StmtForm.const name type value).bare) ts rest := by
  simp only [StmtForm.words, List.append_assoc, List.cons_append, List.nil_append] at h
  obtain ⟨mid₁, hword, h⟩ := word_accepts h
  obtain ⟨mid₂, hname, h⟩ := name_accepts h
  obtain ⟨mid₃, htype, h⟩ := h.of_append
  obtain ⟨t, mid, rfl, ht, -⟩ := h.of_cons
  have hequalsKind : t.kind ≠ .name := by
    rw [List.mem_singleton.mp ht.2]
    decide
  obtain ⟨mid₄, hequals, h⟩ := word_accepts h
  refine .node (.bind hword fun _ _ => .bind (hname.need _) fun n hn =>
    .bind (type_accepts htype (by rintro _ ⟨⟩; exact hequalsKind)) fun ty hty =>
    .bind (hequals.need _) fun _ _ => .bind (term_accepts hvalue h) fun v hv => .pure ?_ _)
  rw [StmtForm.bare, StmtForm.bare, hn, hty, hv]

theorem binding_accepts {name : Text} {value : Expr} (hvalue : value.isWritable)
    (h : Shows (StmtForm.bind name value).words ts rest) (hrest : NotAs rest)
    (hon : value.readsOn → Closes rest) :
    Accepts binding (fun y => y.bare = (StmtForm.bind name value).bare) ts rest := by
  obtain ⟨mid₁, hword, h⟩ := word_accepts h
  obtain ⟨mid₂, hname, h⟩ := name_accepts h
  obtain ⟨mid₃, hequals, h⟩ := word_accepts h
  refine .node (.bind hword fun _ _ => .bind (hname.need _) fun n hn => .bind (hequals.need _) fun _ _ =>
    .bind (expr_accepts hvalue h hrest hon) fun v hv => .pure ?_ _)
  rw [StmtForm.bare, StmtForm.bare, hn, hv]

theorem asmCode_accepts {code : Text} (h : Shows (StmtForm.asm code).words ts rest) :
    Accepts asmCode (· = .asm code) ts rest := by
  obtain ⟨mid₁, hword, h⟩ := word_accepts h
  obtain ⟨mid₂, hcode, h⟩ := string_accepts h
  obtain rfl := h.of_nil
  exact .node (.bind hword fun _ _ => .bind (hcode.need _) fun v hv => .pure (by rw [hv]) _)

theorem exiting_accepts {code : Option Term} (hcode : code.all Term.isWritable)
    (h : Shows (StmtForm.exit code).words ts rest) (hon : code = none → Closes rest) :
    Accepts exiting (fun y => y.bare = (StmtForm.exit code).bare) ts rest := by
  obtain ⟨mid, hword, h⟩ := word_accepts h
  have hterm : Accepts (optional term) (fun o => o.map Term.bare = code.map Term.bare) mid rest := by
    cases code with
    | none =>
      obtain rfl := h.of_nil
      exact (hon rfl).term_refuses.optional.mono fun o ho => by rw [ho]
    | some value =>
      have hvalue : Shows value.words mid rest := by simpa using h
      refine (term_accepts hcode hvalue).optional.mono fun o ho => ?_
      obtain ⟨v, rfl, hv⟩ := ho
      rw [Option.map_some, Option.map_some, hv]
  refine .node (.bind hword fun _ _ => .bind hterm fun o ho => .pure ?_ _)
  rw [StmtForm.bare, StmtForm.bare, ho]

theorem stmt_words (s : Stmt) : ∃ w ∈ stmtKeywords, ∃ ws, s.words = .keyword w :: ws := by
  obtain ⟨pos, form⟩ := s
  cases form <;> exact ⟨_, by decide, _, rfl⟩

theorem stmt_accepts {s : Stmt} (hs : s.isWritable) (h : Shows s.words ts rest) (hrest : NotAs rest)
    (hon : s.readsOn → Closes rest) : Accepts stmt (fun y => y.bare = s.bare) ts rest := by
  have hpick : ∀ {t mid p w}, (p, w) ∈ stmtParsers.zip stmtKeywords → t.value = w →
      Accepts p (fun y => y.bare = s.form.bare) (t :: mid) rest →
      Accepts stmt (fun y => y.bare = s.bare) (t :: mid) rest := by
    intro t mid p w hmem ht hp
    have hpicks := Picks.keyed stmtParsers_start (by decide) hmem ht hp []
    refine .node (.here_bind fun pos => .bind hpicks.choice fun form hform => .pure ?_ _)
    rw [Stmt.bare, Stmt.bare, hform]
  obtain ⟨w, hw, ws, hwords⟩ := stmt_words s
  have hfirst := h
  rw [hwords] at hfirst
  obtain ⟨t, mid, rfl, ht, -⟩ := hfirst.of_cons
  obtain ⟨pos, form⟩ := s
  cases form with
  | const name type value =>
    cases hwords
    simp only [Stmt.isWritable, Bool.and_eq_true] at hs
    exact hpick (by simp [stmtParsers, stmtKeywords, Word.value]) ht.1 (constDecl_accepts hs.2 h)
  | globalVar name type =>
    cases hwords
    exact hpick (by simp [stmtParsers, stmtKeywords, Word.value]) ht.1
      (p := globalDecl) (Accepts.node ((typed_accepts h .globalVar).mono fun y hy => by rw [hy]))
  | localVar name type =>
    cases hwords
    exact hpick (by simp [stmtParsers, stmtKeywords, Word.value]) ht.1
      (p := localDecl) (Accepts.node ((typed_accepts h .localVar).mono fun y hy => by rw [hy]))
  | bind name value =>
    cases hwords
    simp only [Stmt.isWritable, Bool.and_eq_true] at hs
    exact hpick (by simp [stmtParsers, stmtKeywords, Word.value]) ht.1 (binding_accepts hs.2 h hrest hon)
  | call c =>
    cases hwords
    exact hpick (by simp [stmtParsers, stmtKeywords, Word.value]) ht.1
      (.map (f := StmtForm.call) (call_accepts hs h hrest) fun y hy => by
        rw [StmtForm.bare, StmtForm.bare, hy])
  | print value =>
    cases hwords
    exact hpick (by simp [stmtParsers, stmtKeywords, Word.value]) ht.1
      ((valued_accepts hs h .print).mono fun y hy => by
        obtain ⟨v, rfl, hv⟩ := hy
        rw [StmtForm.bare, StmtForm.bare, hv])
  | asm code =>
    cases hwords
    exact hpick (by simp [stmtParsers, stmtKeywords, Word.value]) ht.1
      ((asmCode_accepts h).mono fun y hy => by rw [hy])
  | free name =>
    cases hwords
    exact hpick (by simp [stmtParsers, stmtKeywords, Word.value]) ht.1
      (p := freeing) (Accepts.node ((named_accepts h StmtForm.free).mono fun y hy => by rw [hy]))
  | ret value =>
    cases hwords
    exact hpick (by simp [stmtParsers, stmtKeywords, Word.value]) ht.1
      ((valued_accepts hs h .ret).mono fun y hy => by
        obtain ⟨v, rfl, hv⟩ := hy
        rw [StmtForm.bare, StmtForm.bare, hv])
  | exit code =>
    cases hwords
    exact hpick (by simp [stmtParsers, stmtKeywords, Word.value]) ht.1
      (exiting_accepts hs h fun hnone => hon (by rw [hnone]; rfl))

/-! ## Statements and items one after another -/

theorem Closes.notAs (h : Closes rest) : NotAs rest := by
  intro t ht
  rw [(h t ht).1]
  decide

/-- Members that begin with keywords are read apart if only the last one reads on. -/
theorem sequence_of_clear {α : Type} {words : α → List Word} {readsOn : α → Bool} {P : α → Prop}
    (hwords : ∀ x, ∃ w ws, words x = .keyword w :: ws ∧ w ≠ "as") {xs : List α} (hP : ∀ x ∈ xs, P x)
    (hclear : ∀ x ∈ xs.dropLast, readsOn x = false) (h : Shows (xs.flatMap words) ts rest)
    (hrest : Closes rest) :
    Sequence (fun x ts rest => P x ∧ Shows (words x) ts rest ∧ NotAs rest ∧ (readsOn x → Closes rest))
      xs ts rest := by
  induction xs generalizing ts with
  | nil =>
    obtain rfl := h.of_nil
    exact .nil _
  | cons x xs ih =>
    rw [List.flatMap_cons] at h
    obtain ⟨mid, hx, hxs⟩ := h.of_append
    have hfirst : NotAs mid ∧ (readsOn x → Closes mid) := by
      cases xs with
      | nil =>
        obtain rfl := hxs.of_nil
        exact ⟨hrest.notAs, fun _ => hrest⟩
      | cons y ys =>
        obtain ⟨w, ws, hy, hw⟩ := hwords y
        rw [List.flatMap_cons, hy, List.cons_append] at hxs
        obtain ⟨t, mid', rfl, ht, -⟩ := hxs.of_cons
        refine ⟨?_, fun hon => ?_⟩
        · rintro _ ⟨⟩
          rw [ht.1]
          exact hw
        · rw [hclear x List.mem_cons_self] at hon
          cases hon
    have hothers : ∀ y ∈ xs.dropLast, readsOn y = false := by
      cases xs with
      | nil => exact List.forall_mem_nil _
      | cons y ys => exact fun z hz => hclear z (List.mem_cons_of_mem x hz)
    exact .cons ⟨hP x List.mem_cons_self, hx, hfirst⟩
      (ih (fun y hy => hP y (List.mem_cons_of_mem x hy)) hothers hxs)

theorem stmts_accept {ss : List Stmt} (hs : ∀ s ∈ ss, s.isWritable)
    (hclear : ss.dropLast.all fun s => !s.readsOn) (h : Shows (ss.flatMap (·.words)) ts rest)
    (hrest : Closes rest) :
    Accepts (many stmt) (List.Forall₂ (fun s y => y.bare = s.bare) ss) ts rest := by
  have hwords : ∀ s : Stmt, ∃ w ws, s.words = .keyword w :: ws ∧ w ≠ "as" := by
    intro s
    obtain ⟨w, hw, ws, hs⟩ := stmt_words s
    exact ⟨w, ws, hs, fun has => absurd (has ▸ hw) (by decide)⟩
  have hsequence := sequence_of_clear hwords hs (by simpa using hclear) h hrest
  refine .many (fun s ts rest hsts => ?_) hsequence (stmt_refuses fun t ht => ?_)
  · obtain ⟨hwritable, hshows, hnotAs, hon⟩ := hsts
    obtain ⟨w, ws, heq, -⟩ := hwords s
    have hlength := hshows.length
    rw [heq, List.length_cons] at hlength
    exact ⟨stmt_accepts hwritable hshows hnotAs hon, by omega⟩
  · rw [(hrest t ht).1]
    decide

theorem formal_accepts {p : Formal} (h : Shows p.words ts rest) :
    Accepts formal (fun y => y.bare = p.bare) ts rest := by
  obtain ⟨mid₁, hname, h⟩ := name_accepts h
  obtain ⟨mid₂, htype, h⟩ := name_accepts h
  obtain rfl := h.of_nil
  refine .node (.here_bind fun pos => .bind hname fun n hn => .bind (htype.need _) fun ty hty =>
    .pure ?_ _)
  subst hn hty
  rfl

theorem formal_refuses (h : ∀ t ∈ ts.head?, t.kind = .mark) : Refuses formal ts := by
  refine .node (.here_bind fun pos => .bind (.ofKind fun t ht => ?_))
  rw [h t ht]
  decide

theorem func_accepts {f : Func} (hf : f.isWritable) (hclear : (Item.func f).isClear)
    (h : Shows f.words ts rest) : Accepts func (fun y => y.bare = f.bare) ts rest := by
  obtain ⟨pos, name, params, body⟩ := f
  simp only [Func.isWritable, Bool.and_eq_true, List.all_eq_true] at hf
  simp only [Func.words, Func.headWords, List.append_assoc, List.cons_append, List.nil_append] at h
  obtain ⟨mid₁, hfunc, h⟩ := word_accepts h
  obtain ⟨mid₂, hname, h⟩ := name_accepts h
  obtain ⟨mid₃, hopen, h⟩ := word_accepts h
  obtain ⟨mid₄, hlist, h⟩ := h.of_append
  obtain ⟨t, mid, rfl, ht, -⟩ := h.of_cons
  have hclosing := closing_shown ht
  obtain ⟨mid₅, hclose, h⟩ := word_accepts h
  obtain ⟨mid₆, hbegin, h⟩ := word_accepts h
  obtain ⟨mid₇, hbody, h⟩ := h.of_append
  obtain ⟨brace, mid, rfl, hbrace, -⟩ := h.of_cons
  obtain ⟨mid₈, hend, h⟩ := word_accepts h
  obtain rfl := h.of_nil
  have hparams := listed_accepts (fun y _ ts rest hshows => formal_accepts hshows) .name hlist
    (fun y hy => by cases hy; exact hclosing.2.2) (formal_refuses fun y hy => by cases hy; exact hclosing.1)
  have hstmts := stmts_accept hf.2 hclear hbody (by rintro _ ⟨⟩; exact hbrace)
  refine .node (.here_bind fun pos => .bind hfunc fun _ _ => .bind (hname.need _) fun n hn =>
    .bind (hopen.need _) fun _ _ => .bind hparams fun ps hps => .bind (hclose.need _) fun _ _ =>
    .bind (hbegin.need _) fun _ _ => .bind hstmts fun ss hss => .bind (hend.need _) fun _ _ =>
    .pure ?_ _)
  subst hn
  rw [Func.bare, Func.bare, map_bare_eq hps, map_bare_eq hss]

theorem func_starts : Starts func "func" := Starts.node fun _ h => .here_bind fun _ => .bind (.word h)

theorem item_words (i : Item) : ∃ w ∈ ("func" : Text) :: stmtKeywords, ∃ ws, i.words = .keyword w :: ws := by
  cases i with
  | func f => exact ⟨"func", List.mem_cons_self, _, rfl⟩
  | stmt s =>
    obtain ⟨w, hw, hs⟩ := stmt_words s
    exact ⟨w, List.mem_cons_of_mem _ hw, hs⟩

theorem item_accepts {i : Item} (hi : i.isWritable) (hclear : i.isClear) (h : Shows i.words ts rest)
    (hrest : NotAs rest) (hon : i.readsOn → Closes rest) :
    Accepts item (fun y => y.bare = i.bare) ts rest := by
  refine .node (Picks.choice ?_)
  cases i with
  | func f =>
    refine .first ((func_accepts hi hclear h).map fun y hy => ?_) _
    rw [Item.bare, Item.bare, hy]
  | stmt s =>
    simp only [Item.isWritable, Bool.and_eq_true] at hi
    obtain ⟨w, hw, ws, hwords⟩ := stmt_words s
    have hshows : Shows s.words ts rest := h
    rw [hwords] at hshows
    obtain ⟨t, mid, rfl, ht, -⟩ := hshows.of_cons
    refine .skip (Refuses.balks (.map (func_starts _ ?_) _))
      (.first ((stmt_accepts hi.1 h hrest hon).map fun y hy => ?_) _)
    · rintro _ ⟨⟩ hfunc
      rw [ht.1] at hfunc
      exact absurd ((show w = "func" from hfunc) ▸ hw) (by decide)
    · rw [Item.bare, Item.bare, hy]

theorem item_refuses_nil : Refuses item [] := by
  refine .node (.choice fun p hp => ?_)
  simp only [List.mem_cons, List.not_mem_nil, or_false] at hp
  rcases hp with rfl | rfl
  · exact Refuses.balks (.map (func_starts [] fun t ht => by cases ht) _)
  · exact Refuses.balks (.map (stmt_refuses fun t ht => by cases ht) _)

theorem items_accept {is : List Item} (hi : ∀ i ∈ is, i.isWritable) (hclear : ∀ i ∈ is, i.isClear)
    (hon : is.dropLast.all fun i => !i.readsOn) (h : Shows (is.flatMap Item.words) ts []) :
    Accepts (many item) (List.Forall₂ (fun i y => y.bare = i.bare) is) ts [] := by
  have hwords : ∀ i : Item, ∃ w ws, i.words = .keyword w :: ws ∧ w ≠ "as" := by
    intro i
    obtain ⟨w, hw, ws, hi⟩ := item_words i
    exact ⟨w, ws, hi, fun has => absurd (has ▸ hw) (by decide)⟩
  have hP : ∀ i ∈ is, i.isWritable ∧ i.isClear := fun i hmem => ⟨hi i hmem, hclear i hmem⟩
  have hsequence := sequence_of_clear hwords hP (by simpa using hon) h (by rintro _ ⟨⟩)
  refine .many (fun i ts rest hits => ?_) hsequence item_refuses_nil
  obtain ⟨⟨hwritable, hiclear⟩, hshows, hnotAs, hion⟩ := hits
  obtain ⟨w, ws, heq, -⟩ := hwords i
  have hlength := hshows.length
  rw [heq, List.length_cons] at hlength
  exact ⟨item_accepts hwritable hiclear hshows hnotAs hion, by omega⟩

theorem int_accepts {v : Text} (h : Shows (.int v :: ws) ts rest) :
    ∃ mid, Accepts (ofKind .int) (· = v) ts mid ∧ Shows ws mid rest := by
  obtain ⟨t, mid, rfl, ⟨hvalue, hkind⟩, hmid⟩ := h.of_cons
  obtain rfl : t.value = v := hvalue
  exact ⟨mid, .ofKind (List.mem_singleton.mp hkind) mid, hmid⟩

theorem width_accepts {target : Option Target} (h : Shows (widthWords target) ts rest)
    (hrest : ∀ t ∈ rest.head?, t.value ≠ "bits") :
    Accepts (optional width) (· = target.map fun t => Text.ofNat t.bits) ts rest := by
  cases target with
  | none =>
    obtain rfl := h.of_nil
    exact Refuses.optional (.bind (.word hrest))
  | some t =>
    obtain ⟨mid₁, hbits, h⟩ := word_accepts h
    obtain ⟨mid₂, hint, h⟩ := int_accepts h
    obtain rfl := h.of_nil
    intro c hc
    obtain ⟨o, d, hrun, ⟨v, rfl, rfl⟩, hd⟩ := (Accepts.bind hbits fun _ _ => hint.need _).optional c hc
    exact ⟨_, d, hrun, rfl, hd⟩

/-- What items begin with does not ask for a width. -/
theorem items_ne_bits {is : List Item} (h : Shows (is.flatMap Item.words) ts rest)
    (hrest : ∀ t ∈ rest.head?, t.value ≠ "bits") : ∀ t ∈ ts.head?, t.value ≠ "bits" := by
  cases is with
  | nil =>
    obtain rfl := h.of_nil
    exact hrest
  | cons i is =>
    obtain ⟨w, hw, ws, hwords⟩ := item_words i
    rw [List.flatMap_cons, hwords, List.cons_append] at h
    obtain ⟨t, mid, rfl, ht, -⟩ := h.of_cons
    rintro _ ⟨⟩ hbits
    rw [ht.1] at hbits
    exact absurd ((show w = "bits" from hbits) ▸ hw) (by decide)

end Grammar

theorem machine?_ofNat (target : Option Target) :
    ∃ bits, widthValue (target.map fun t => Text.ofNat t.bits) = .ok bits ∧
      machine? bits = .ok target := by
  cases target with
  | none => exact ⟨0, rfl, rfl⟩
  | some t => exact ⟨t.bits, by cases t <;> decide, by cases t <;> decide⟩

theorem topFault?_of_isWritable {i : Item} (h : i.isWritable) : topFault? i = none := by
  cases i with
  | func f => rfl
  | stmt s =>
    simp only [Item.isWritable, Bool.and_eq_true, Option.isNone_iff_eq_none] at h
    exact h.2

theorem topFault?_bare (i : Item) : topFault? i.bare = topFault? i := by
  cases i with
  | func f => rfl
  | stmt s =>
    obtain ⟨pos, form⟩ := s
    cases form <;> rfl

/-- The text of a script in which nothing reads on is read as the script. -/
theorem parse_text_of_isClear {s : Script} (hs : s.isWritable) (hc : s.isClear) :
    ∃ s', parse s.text = .ok s' ∧ s'.bare = s.bare := by
  have hwritable : ∀ i ∈ s.items, i.isWritable := List.all_eq_true.mp hs
  simp only [isClear, Bool.and_eq_true] at hc
  obtain ⟨⟨hsome, hon⟩, hclear⟩ := hc
  obtain ⟨ts, eof, htokens, hshown⟩ := tokens_text hs
  have hshows : Shows (widthWords s.width ++ s.items.flatMap Item.words) ts [] :=
    ⟨ts, (List.append_nil ts).symm, hshown⟩
  obtain ⟨mid, hwidth, hitems⟩ := hshows.of_append
  have hbits := Grammar.items_ne_bits hitems (by rintro _ ⟨⟩)
  obtain ⟨o, d, hrunWidth, rfl, hd⟩ := Grammar.width_accepts hwidth hbits (.start ts eof) rfl
  obtain ⟨items, e, hrunItems, hsame, he⟩ :=
    Grammar.items_accept hwritable (List.all_eq_true.mp hclear) hon hitems d hd.1
  obtain ⟨bits, hvalue, hmachine⟩ := machine?_ofNat s.width
  have hmap := Grammar.map_bare_eq hsame
  have hscript : Grammar.script (.start ts eof) =
      (.ok (s.width.map fun t => Text.ofNat t.bits, items), e) := by
    rw [Grammar.script, Parser.run_bind, hrunWidth]
    show (Parser.many Grammar.item >>= _) d = _
    rw [Parser.run_bind, hrunItems]
    rfl
  have hread : readItems ts eof = .ok (bits, items) := by
    refine readItems_eq_ok_iff.mpr ⟨_, e, hscript, fun hnone hnil => ?_, hvalue, he.1⟩
    rw [hnil, List.map_nil] at hmap
    rw [Option.map_eq_none_iff.mp hnone, List.map_eq_nil_iff.mp hmap.symm] at hsome
    cases hsome
  refine ⟨⟨(Cursor.start ts eof).next.pos, s.width, items, []⟩, parse_eq_ok_iff.mpr
    ⟨ts, eof, bits, s.width, htokens, hread, hmachine, fun i hi => ?_, rfl⟩, by rw [bare, bare, hmap]⟩
  have hmem : i.bare ∈ s.items.map Item.bare := hmap ▸ List.mem_map_of_mem hi
  obtain ⟨j, hj, hji⟩ := List.mem_map.mp hmem
  rw [← topFault?_bare, ← hji, topFault?_bare]
  exact topFault?_of_isWritable (hwritable j hj)

end Assembly.Script
