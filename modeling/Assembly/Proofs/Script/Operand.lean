import Assembly.Proofs.Script.Accepts
import Assembly.Proofs.Script.Printed
import Assembly.Proofs.Script.Tree

/-!
# Reading terms and expressions

The tokens for the words of a term, a call or an expression are read as that term, call or
expression, up to positions.  A term is read whatever follows it; behind a call or a load no
token may be taken for the word in front of a type, and behind a string that is a keyword of
expressions the statement has to end.
-/

namespace Assembly.Script

/-! ## Tokens that show words -/

/-- The tokens `ts` begin with tokens for the words, and `rest` follows. -/
def Shows (ws : List Word) (ts rest : List Token) : Prop :=
  ∃ front, ts = front ++ rest ∧ List.Forall₂ Word.Shown ws front

namespace Shows

theorem of_nil {ts rest : List Token} (h : Shows [] ts rest) : ts = rest := by
  obtain ⟨front, rfl, hfront⟩ := h
  cases hfront
  rfl

theorem of_cons {w : Word} {ws : List Word} {ts rest : List Token} (h : Shows (w :: ws) ts rest) :
    ∃ t mid, ts = t :: mid ∧ w.Shown t ∧ Shows ws mid rest := by
  obtain ⟨front, rfl, hfront⟩ := h
  cases hfront with
  | @cons _ t _ front ht hothers => exact ⟨t, front ++ rest, rfl, ht, front, rfl, hothers⟩

theorem of_append {us vs : List Word} {ts rest : List Token} (h : Shows (us ++ vs) ts rest) :
    ∃ mid, Shows us ts mid ∧ Shows vs mid rest := by
  induction us generalizing ts with
  | nil => exact ⟨ts, ⟨[], rfl, .nil⟩, h⟩
  | cons u us ih =>
    obtain ⟨t, mid, rfl, ht, hmid⟩ := of_cons h
    obtain ⟨mid', ⟨front, rfl, hfront⟩, hvs⟩ := ih hmid
    exact ⟨mid', ⟨t :: front, rfl, .cons ht hfront⟩, hvs⟩

theorem length {ws : List Word} {ts rest : List Token} (h : Shows ws ts rest) :
    ts.length = ws.length + rest.length := by
  obtain ⟨front, rfl, hfront⟩ := h
  rw [List.length_append, hfront.length_eq]

theorem sequence {α : Type} {words : α → List Word} {P : α → Prop} {xs : List α}
    (hP : ∀ x ∈ xs, P x) {ts rest : List Token} (h : Shows (xs.flatMap words) ts rest) :
    Sequence (fun x ts rest => P x ∧ Shows (words x) ts rest) xs ts rest := by
  induction xs generalizing ts with
  | nil =>
    obtain rfl := h.of_nil
    exact .nil _
  | cons x xs ih =>
    rw [List.flatMap_cons] at h
    obtain ⟨mid, hx, hxs⟩ := h.of_append
    exact .cons ⟨hP x List.mem_cons_self, hx⟩ (ih (fun y hy => hP y (List.mem_cons_of_mem x hy)) hxs)

end Shows

namespace Grammar

open Script.Parser

variable {ts rest : List Token} {ws : List Word}

theorem word_accepts {w : Word} (h : Shows (w :: ws) ts rest) :
    ∃ mid, Accepts (word w.value) (fun _ => True) ts mid ∧ Shows ws mid rest := by
  obtain ⟨t, mid, rfl, ht, hmid⟩ := h.of_cons
  exact ⟨mid, .word ht.1 mid, hmid⟩

theorem name_accepts {v : Text} (h : Shows (.name v :: ws) ts rest) :
    ∃ mid, Accepts name (· = v) ts mid ∧ Shows ws mid rest := by
  obtain ⟨t, mid, rfl, ⟨hvalue, hkind⟩, hmid⟩ := h.of_cons
  obtain rfl : t.value = v := hvalue
  exact ⟨mid, .ofKind (List.mem_singleton.mp hkind) mid, hmid⟩

theorem string_accepts {v : Text} (h : Shows (.string v :: ws) ts rest) :
    ∃ mid, Accepts (ofKind .string) (· = v) ts mid ∧ Shows ws mid rest := by
  obtain ⟨t, mid, rfl, ⟨hvalue, hkind⟩, hmid⟩ := h.of_cons
  obtain rfl : t.value = v := hvalue
  exact ⟨mid, .ofKind (List.mem_singleton.mp hkind) mid, hmid⟩

theorem digits_accepts {v : Text} (h : Shows (.number v :: ws) ts rest) :
    ∃ mid, Accepts (need .number (choice [ofKind .float, ofKind .int])) (· = v) ts mid ∧
      Shows ws mid rest := by
  obtain ⟨t, mid, rfl, ⟨hvalue, hkind⟩, hmid⟩ := h.of_cons
  obtain rfl : t.value = v := hvalue
  refine ⟨mid, .need (Picks.choice ?_) _, hmid⟩
  simp only [Word.kinds, List.mem_cons, List.not_mem_nil, or_false] at hkind
  rcases hkind with hkind | hkind
  · refine .skip (Refuses.balks (.ofKind fun x hx => ?_)) (.first (.ofKind hkind mid) _)
    cases hx
    rw [hkind]
    decide
  · exact .first (.ofKind hkind mid) _

theorem number_accepts {v : Text} (hv : isNumeral v) (h : Shows (numeralWords v) ts rest) :
    Accepts number (· = v) ts rest := by
  rcases words_of_isNumeral hv with ⟨digits, rfl, hwords, -⟩ | ⟨hminus, hwords, -⟩
  · rw [hwords] at h
    obtain ⟨mid, hminus, h⟩ := word_accepts h
    obtain ⟨mid', hdigits, h⟩ := digits_accepts h
    obtain rfl := h.of_nil
    refine .bind hminus.optional fun o ho => .bind hdigits fun d hd => ?_
    obtain ⟨_, rfl, -⟩ := ho
    subst hd
    exact .pure (by rfl) _
  · rw [hwords] at h
    obtain ⟨t, mid, hts, ⟨hvalue, hkind⟩, -⟩ := h.of_cons
    obtain ⟨mid', hdigits, h⟩ := digits_accepts h
    obtain rfl := h.of_nil
    have hnotMinus : Refuses (word "-") ts := .word fun x hx => by
      rw [hts] at hx
      cases hx
      exact fun hdash => hminus [] (hvalue.symm.trans hdash)
    refine .bind hnotMinus.optional fun o ho => .bind hdigits fun d hd => ?_
    subst ho hd
    exact .pure (by rfl) _

theorem ne_minus_of_isIdentifier {v : Text} (h : isIdentifier v) : v ≠ "-" := by
  rintro rfl
  have hnot : isIdentifier "-" = false := by decide
  rw [hnot] at h
  cases h

theorem number_refuses (h : ∀ t ∈ ts.head?, t.kind ∉ [TokenKind.int, .float] ∧ t.value ≠ "-") :
    Refuses number ts := by
  refine .optional_bind (.word fun t ht => (h t ht).2) (.bind (.need (.choice fun p hp => ?_) _))
  simp only [List.mem_cons, List.not_mem_nil, or_false] at hp
  rcases hp with rfl | rfl
  · refine Refuses.balks (.ofKind fun t ht hkind => (h t ht).1 ?_)
    simp [hkind]
  · refine Refuses.balks (.ofKind fun t ht hkind => (h t ht).1 ?_)
    simp [hkind]

theorem numeral_ne_string {v : Text} (h : Shows (numeralWords v) ts rest) :
    ∀ t ∈ ts.head?, t.kind ≠ .string := by
  have hkinds : ∃ w ws, numeralWords v = w :: ws ∧ TokenKind.string ∉ w.kinds := by
    rw [numeralWords.eq_def]
    split
    · exact ⟨_, _, rfl, by decide⟩
    · exact ⟨_, _, rfl, by simp [Word.kinds]⟩
  obtain ⟨w, ws, hwords, hnot⟩ := hkinds
  rw [hwords] at h
  obtain ⟨t, mid, rfl, ⟨-, hkind⟩, -⟩ := h.of_cons
  rintro x ⟨⟩ hstring
  exact hnot (hstring ▸ hkind)

theorem term_accepts_of {form : TermForm}
    (h : Picks [TermForm.string <$> ofKind .string, TermForm.number <$> number, TermForm.name <$> name]
      (· = form) ts rest) : Accepts term (·.form = form) ts rest :=
  .node (.here_bind fun _ => .bind h.choice fun _ hform => .pure (by rw [hform]) _)

theorem term_accepts_name {t : Token} (hkind : t.kind = .name) (hvalue : t.value ≠ "-")
    (rest : List Token) : Accepts term (·.form = .name t.value) (t :: rest) rest := by
  have hname : Accepts (TermForm.name <$> name) (· = .name t.value) (t :: rest) rest :=
    (Accepts.ofKind hkind rest).map fun _ => congrArg _
  refine term_accepts_of (.skip (Refuses.balks (.map (.ofKind ?_) _))
    (.skip (Refuses.balks (.map (number_refuses ?_) _)) (.first hname _)))
  · rintro _ ⟨⟩
    rw [hkind]
    decide
  · rintro _ ⟨⟩
    rw [hkind]
    exact ⟨by decide, hvalue⟩

theorem term_accepts {x : Term} (hx : x.isWritable) (h : Shows x.words ts rest) :
    Accepts term (fun y => y.bare = x.bare) ts rest := by
  have hform : Accepts term (·.form = x.form) ts rest := by
    obtain ⟨pos, form⟩ := x
    cases form with
    | string v =>
      obtain ⟨mid, hstring, h⟩ := string_accepts h
      obtain rfl := h.of_nil
      exact term_accepts_of (.first (hstring.map fun _ => congrArg _) _)
    | number v =>
      exact term_accepts_of (.skip (Refuses.balks (.map (.ofKind (numeral_ne_string h)) _))
        (.first ((number_accepts hx h).map fun _ => congrArg _) _))
    | name v =>
      obtain ⟨t, mid, rfl, ⟨hvalue, hkind⟩, hnil⟩ := h.of_cons
      obtain rfl := hnil.of_nil
      obtain rfl : t.value = v := hvalue
      exact term_accepts_name (List.mem_singleton.mp hkind) (ne_minus_of_isIdentifier hx) mid
  exact hform.mono fun y hy => by rw [Term.bare, Term.bare, hy]

theorem term_refuses (h : ∀ t ∈ ts.head?, t.kind = .mark ∧ t.value ≠ "-") : Refuses term ts := by
  refine .node (.here_bind fun pos => .bind (.choice fun p hp => ?_))
  simp only [List.mem_cons, List.not_mem_nil, or_false] at hp
  rcases hp with rfl | rfl | rfl
  · refine Refuses.balks (.map (.ofKind fun t ht => ?_) _)
    rw [(h t ht).1]
    decide
  · refine Refuses.balks (.map (number_refuses fun t ht => ?_) _)
    rw [(h t ht).1]
    exact ⟨by decide, (h t ht).2⟩
  · refine Refuses.balks (.map (.ofKind fun t ht => ?_) _)
    rw [(h t ht).1]
    decide

/-- What may follow a result's type that is not given. -/
def NotAs (ts : List Token) : Prop := ∀ t ∈ ts.head?, t.value ≠ "as"

theorem asType_accepts {type : Option Text} (h : Shows (asWords type) ts rest) (hrest : NotAs rest) :
    Accepts asType (· = type) ts rest := by
  cases type with
  | none =>
    obtain rfl := h.of_nil
    exact Refuses.optional (.bind (.word hrest))
  | some v =>
    obtain ⟨mid, has, h⟩ := word_accepts h
    obtain ⟨mid', hname, h⟩ := name_accepts h
    obtain rfl := h.of_nil
    intro c hc
    obtain ⟨o, d, hrun, ⟨w, rfl, rfl⟩, hd⟩ := (Accepts.bind has fun _ _ => hname.need _).optional c hc
    exact ⟨some w, d, hrun, rfl, hd⟩

/-- Members of a list are accepted up to the closing parenthesis. -/
theorem listed_accepts {α : Type} {p : Parser α} {words : α → List Word} {S : α → α → Prop}
    {xs : List α} (hp : ∀ x ∈ xs, ∀ ts rest, Shows (words x) ts rest → Accepts p (S x) ts rest)
    (e : Expected) (h : Shows (listWords (xs.map words)) ts rest)
    (hrest : ∀ t ∈ rest.head?, t.value ≠ ",") (hend : Refuses p rest) :
    Accepts (listed e p) (List.Forall₂ S xs) ts rest := by
  cases xs with
  | nil =>
    obtain rfl := h.of_nil
    refine .bind (Refuses.optional (.bind hend)) fun o ho => .pure ?_ _
    subst ho
    exact .nil
  | cons x xs =>
    obtain ⟨mid, hx, hothers⟩ := h.of_append
    have hfirst := hp x List.mem_cons_self ts mid hx
    have hmany : Accepts (many (do word ","; need e p)) (List.Forall₂ S xs) mid rest := by
      rw [List.flatMap_map] at hothers
      refine Accepts.many (fun y ts rest hy => ?_)
        (hothers.sequence fun y hy => hp y (List.mem_cons_of_mem x hy)) (.bind (.word hrest))
      obtain ⟨haccepts, hshows⟩ := hy
      have hlength := hshows.length
      rw [List.length_cons] at hlength
      obtain ⟨mid, hcomma, hshows⟩ := word_accepts hshows
      exact ⟨.bind hcomma fun _ _ => (haccepts mid rest hshows).need e, by omega⟩
    have hlist := Accepts.bind hfirst fun a ha => Accepts.bind hmany fun as has =>
      Accepts.pure (S := List.Forall₂ S (x :: xs)) (.cons ha has) rest
    refine .bind hlist.optional fun o ho => .pure ?_ _
    obtain ⟨as, rfl, has⟩ := ho
    exact has

theorem map_bare_eq {α : Type} {bare : α → α} {xs ys : List α}
    (h : List.Forall₂ (fun x y => bare y = bare x) xs ys) : ys.map bare = xs.map bare := by
  induction h with
  | nil => rfl
  | cons hxy _ ih => rw [List.map_cons, List.map_cons, hxy, ih]

/-- A token that is a mark other than the comma, the minus sign and the like. -/
theorem closing_shown {t : Token} (h : (Word.mark ")").Shown t) :
    t.kind = .mark ∧ t.value ≠ "-" ∧ t.value ≠ "," := by
  refine ⟨List.mem_singleton.mp h.2, ?_, ?_⟩ <;> rw [h.1] <;> decide

theorem call_accepts {x : CallForm} (hx : x.isWritable) (h : Shows x.words ts rest)
    (hrest : NotAs rest) : Accepts call (fun y => y.bare = x.bare) ts rest := by
  obtain ⟨name, args, type⟩ := x
  simp only [CallForm.isWritable, Bool.and_eq_true, List.all_eq_true] at hx
  obtain ⟨⟨-, hargs⟩, -⟩ := hx
  simp only [CallForm.words, List.append_assoc, List.cons_append, List.nil_append] at h
  obtain ⟨mid₁, hcall, h⟩ := word_accepts h
  obtain ⟨mid₂, hname, h⟩ := name_accepts h
  obtain ⟨mid₃, hopen, h⟩ := word_accepts h
  obtain ⟨mid₄, hlist, h⟩ := h.of_append
  obtain ⟨t, mid₅, rfl, ht, -⟩ := h.of_cons
  have hclosing := closing_shown ht
  obtain ⟨mid₆, hclose, h⟩ := word_accepts h
  have hterms := listed_accepts (fun y hy ts rest hshows => term_accepts (hargs y hy) hshows) .number
    hlist (fun y hy => by cases hy; exact hclosing.2.2)
    (term_refuses fun y hy => by cases hy; exact ⟨hclosing.1, hclosing.2.1⟩)
  refine .node (.bind hcall fun _ _ => .bind (hname.need _) fun n hn => .bind (hopen.need _) fun _ _ =>
    .bind hterms fun as has => .bind (hclose.need _) fun _ _ =>
    .bind (asType_accepts h hrest) fun ty hty => .pure ?_ _)
  subst hn hty
  rw [CallForm.bare, CallForm.bare, map_bare_eq has]

/-- Statements end where nothing follows or a closing brace. -/
def Closes (ts : List Token) : Prop := ∀ t ∈ ts.head?, (Word.mark "\x7d").Shown t

theorem Closes.term_refuses (h : Closes rest) : Refuses term rest := by
  refine Grammar.term_refuses fun t ht => ⟨List.mem_singleton.mp (h t ht).2, ?_⟩
  rw [(h t ht).1]
  decide

theorem Closes.aName_refuses (h : Closes rest) : Refuses aName rest := by
  refine .need (.ofKind fun t ht => ?_) _
  rw [List.mem_singleton.mp (h t ht).2]
  decide

def exprParsers : List (Parser ExprForm) :=
  [ do word "param"; return .param (← aName)
  , load
  , do word "alloc"; return .alloc (← aName)
  , ExprForm.call <$> call
  , cast ]

theorem exprParsers_start : List.Forall₂ Starts exprParsers exprKeywords :=
  .cons (.word_bind _ _) <| .cons (Starts.node (.word_bind _ _)) <| .cons (.word_bind _ _) <|
    .cons (Starts.map (Starts.node (.word_bind _ _)) _) <| .cons (Starts.node (.word_bind _ _)) .nil

/-- A string that is a keyword of expressions is read as a string where a statement ends. -/
theorem exprParsers_balk {t : Token} (h : Closes ts) : ∀ p ∈ exprParsers, Balks p (t :: ts) := by
  intro p hp
  simp only [exprParsers, List.mem_cons, List.not_mem_nil, or_false] at hp
  rcases hp with rfl | rfl | rfl | rfl | rfl
  · exact .word_bind (.bind h.aName_refuses)
  · exact .node (.word_bind (.bind h.term_refuses))
  · exact .word_bind (.bind h.aName_refuses)
  · exact .map (.node (.word_bind (.bind h.aName_refuses))) _
  · exact .node (.word_bind (.bind h.term_refuses))

theorem exprKeywords_subset : ∀ w ∈ exprKeywords, w ∈ keywords := by decide

theorem not_isTokenOf_exprKeywords :
    ∀ w ∈ exprKeywords, isTokenOf [.int, .float] w = false := by decide

/-- Of terms only strings look like the keyword of an expression. -/
theorem term_head {x : Term} (hx : x.isWritable) (h : Shows x.words ts rest) {t : Token}
    (ht : t ∈ ts.head?) (hvalue : t.value ∈ exprKeywords) : x.form = .string t.value ∧ ts = t :: rest := by
  obtain ⟨pos, form⟩ := x
  cases form with
  | string v =>
    obtain ⟨t', mid, rfl, hshown, hnil⟩ := h.of_cons
    cases ht
    obtain rfl := hnil.of_nil
    exact ⟨congrArg _ hshown.1.symm, rfl⟩
  | number v =>
    exfalso
    have hshows : Shows (numeralWords v) ts rest := h
    rcases words_of_isNumeral hx with ⟨digits, rfl, hwords, -⟩ | ⟨-, hwords, hdigits⟩
    · rw [hwords] at hshows
      obtain ⟨t', mid, rfl, hshown, -⟩ := hshows.of_cons
      cases ht
      rw [hshown.1] at hvalue
      exact absurd hvalue (by decide)
    · rw [hwords] at hshows
      obtain ⟨t', mid, rfl, hshown, -⟩ := hshows.of_cons
      cases ht
      obtain rfl : t.value = v := hshown.1
      rw [not_isTokenOf_exprKeywords t.value hvalue] at hdigits
      cases hdigits
  | name v =>
    exfalso
    obtain ⟨t', mid, rfl, hshown, -⟩ := h.of_cons
    cases ht
    obtain rfl : t.value = v := hshown.1
    have hname : isIdentifier t.value := hx
    simp [isIdentifier, exprKeywords_subset t.value hvalue] at hname

theorem named_accepts {α : Type} {w n : Text} (h : Shows [.keyword w, .name n] ts rest) (f : Text → α) :
    Accepts (do word w; return f (← aName)) (· = f n) ts rest := by
  obtain ⟨mid₁, hword, h⟩ := word_accepts h
  obtain ⟨mid₂, hname, h⟩ := name_accepts h
  obtain rfl := h.of_nil
  exact .bind hword fun _ _ => .bind (hname.need _) fun v hv => .pure (by rw [hv]) _

theorem load_accepts {value : Term} {type : Option Text} (hvalue : value.isWritable)
    (h : Shows (ExprForm.load value type).words ts rest) (hrest : NotAs rest) :
    Accepts load (fun y => y.bare = (ExprForm.load value type).bare) ts rest := by
  obtain ⟨mid₁, hword, h⟩ := word_accepts h
  obtain ⟨mid₂, hterm, htype⟩ := h.of_append
  refine .node (.bind hword fun _ _ => .bind (term_accepts hvalue hterm) fun v hv =>
    .bind (asType_accepts htype hrest) fun ty hty => .pure ?_ _)
  rw [ExprForm.bare, ExprForm.bare, hv, hty]

theorem cast_accepts {value : Term} {type : Text} (hvalue : value.isWritable)
    (h : Shows (ExprForm.cast value type).words ts rest) :
    Accepts cast (fun y => y.bare = (ExprForm.cast value type).bare) ts rest := by
  obtain ⟨mid₁, hword, h⟩ := word_accepts h
  obtain ⟨mid₂, hterm, h⟩ := h.of_append
  obtain ⟨mid₃, hto, h⟩ := word_accepts h
  obtain ⟨mid₄, hname, h⟩ := name_accepts h
  obtain rfl := h.of_nil
  refine .node (.bind hword fun _ _ => .bind (term_accepts hvalue hterm) fun v hv =>
    .bind (hto.need _) fun _ _ => .bind (hname.need _) fun n hn => .pure ?_ _)
  rw [ExprForm.bare, ExprForm.bare, hv, hn]

theorem expr_accepts {x : Expr} (hx : x.isWritable) (h : Shows x.words ts rest)
    (hrest : NotAs rest) (hon : x.readsOn → Closes rest) :
    Accepts expr (fun y => y.bare = x.bare) ts rest := by
  suffices hform : Picks (exprParsers ++ [ExprForm.term <$> term]) (fun y => y.bare = x.form.bare)
      ts rest by
    refine .node (.here_bind fun pos => .bind hform.choice fun form hform => .pure ?_ _)
    rw [Expr.bare, Expr.bare, hform]
  have hpick : ∀ {t mid p w}, (p, w) ∈ exprParsers.zip exprKeywords → t.value = w →
      Accepts p (fun y => y.bare = x.form.bare) (t :: mid) rest →
      Picks (exprParsers ++ [ExprForm.term <$> term]) (fun y => y.bare = x.form.bare) (t :: mid) rest :=
    fun hmem ht hp => .keyed exprParsers_start (by decide) hmem ht hp _
  obtain ⟨pos, form⟩ := x
  cases form with
  | param name =>
    obtain ⟨t, mid, rfl, ht, -⟩ := h.of_cons
    exact hpick (by simp [exprParsers, exprKeywords, Word.value]) ht.1
      ((named_accepts h ExprForm.param).mono fun y hy => by rw [hy])
  | load value type =>
    simp only [Expr.isWritable, Bool.and_eq_true] at hx
    obtain ⟨t, mid, rfl, ht, -⟩ := h.of_cons
    exact hpick (by simp [exprParsers, exprKeywords, Word.value]) ht.1 (load_accepts hx.1 h hrest)
  | alloc type =>
    obtain ⟨t, mid, rfl, ht, -⟩ := h.of_cons
    exact hpick (by simp [exprParsers, exprKeywords, Word.value]) ht.1
      ((named_accepts h ExprForm.alloc).mono fun y hy => by rw [hy])
  | call c =>
    obtain ⟨t, mid, rfl, ht, -⟩ := h.of_cons
    exact hpick (by simp [exprParsers, exprKeywords, Word.value]) ht.1
      (.map (f := ExprForm.call) (call_accepts hx h hrest) fun y hy => by
        rw [ExprForm.bare, ExprForm.bare, hy])
  | cast value type =>
    simp only [Expr.isWritable, Bool.and_eq_true] at hx
    obtain ⟨t, mid, rfl, ht, -⟩ := h.of_cons
    exact hpick (by simp [exprParsers, exprKeywords, Word.value]) ht.1 (cast_accepts hx.1 h)
  | term value =>
    have hterm : Accepts (ExprForm.term <$> term) (fun y => y.bare = (ExprForm.term value).bare) ts rest :=
      (term_accepts hx h).map fun y hy => by rw [ExprForm.bare, ExprForm.bare, hy]
    refine .skipAll ?_ (.first hterm [])
    by_cases hkeyword : ∃ t ∈ ts.head?, t.value ∈ exprKeywords
    · obtain ⟨t, ht, hvalue⟩ := hkeyword
      obtain ⟨hform, rfl⟩ := term_head hx h ht hvalue
      refine exprParsers_balk (hon ?_)
      obtain ⟨pos', form⟩ := value
      obtain rfl : form = .string t.value := hform
      exact List.contains_iff_mem.mpr hvalue
    · exact balks_of_starts exprParsers_start fun t ht hvalue => hkeyword ⟨t, ht, hvalue⟩

end Grammar

end Assembly.Script
