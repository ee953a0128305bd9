import Assembly.Proofs.Script.Complete

/-!
# When the text of a script is read as the script

A statement that can read on does so: behind it no name is left for another statement.  So the
text of a script is read as the script exactly if nothing in it reads on.
-/

namespace Assembly.Script

namespace Parser

variable {α β : Type}

/-! ## Parsers that commit themselves -/

/-- On tokens `ts` the parser does not fail before it has taken `n` of them. -/
def Engages (p : Parser α) (n : Nat) (ts : List Token) : Prop :=
  ∀ c m d, c.rest = ts → p c = (.error m, d) → m ≠ .absent ∧ c.taken + n ≤ d.taken

theorem Engages.zero {p : Parser α} (hp : Definite p) (ho : Onward p) (ts : List Token) :
    Engages p 0 ts := by
  intro c m d _ hrun
  refine ⟨?_, ?_⟩
  · rintro rfl
    exact hp c d hrun
  · have htaken := ho c
    rwa [hrun] at htaken

theorem Engages.bind {p : Parser α} {f : α → Parser β} {S : α → Prop} {t : Token} {ts : List Token}
    {n : Nat} (hp : Accepts p S (t :: ts) ts) (hf : ∀ a, Engages (f a) n ts) :
    Engages (p >>= f) (n + 1) (t :: ts) := by
  intro c m d hc hrun
  obtain ⟨a, b, hpa, -, hb, hcount⟩ := hp c hc
  rw [run_bind, hpa] at hrun
  obtain ⟨hm, htaken⟩ := hf a b m d hb hrun
  rw [List.length_cons] at hcount
  exact ⟨hm, by omega⟩

theorem Engages.node {p : Parser α} {n : Nat} {ts : List Token} (h : Engages p n ts) :
    Engages (node p) n ts := by
  intro c m d hc hrun
  rw [run_node] at hrun
  split at hrun
  next => cases hrun
  next b hp => exact absurd rfl (h c _ b hc hp).1
  next u b hp =>
    cases hrun
    rw [Cursor.taken_note]
    exact h c _ b hc hp

theorem Engages.map {p : Parser α} {n : Nat} {ts : List Token} (h : Engages p n ts) (f : α → β) :
    Engages (f <$> p) n ts := by
  intro c m d hc hrun
  rw [run_map] at hrun
  split at hrun
  next => cases hrun
  next hp =>
    cases hrun
    exact h c m d hc hp

theorem Engages.not_passed {p : Parser α} {ts : List Token} (h : Engages p 2 ts) {c : Cursor}
    (hc : c.rest = ts) : ¬Passed p c := by
  rintro ⟨m, d, hp, hm | hcommit⟩
  · exact (h c m d hc hp).1 hm
  · have htaken := (h c m d hc hp).2
    simp only [Cursor.commits, decide_eq_false_iff_not] at hcommit
    omega

/-- Whatever the parser returns has the property. -/
def Yields (p : Parser α) (S : α → Prop) : Prop := ∀ c a d, p c = (.ok a, d) → S a

theorem Yields.pure {a : α} {S : α → Prop} (h : S a) : Yields (pure a) S := by
  intro c b d hrun
  cases hrun
  exact h

theorem Yields.bind {p : Parser α} {f : α → Parser β} {S : β → Prop} (h : ∀ a, Yields (f a) S) :
    Yields (p >>= f) S := by
  intro c b d hrun
  obtain ⟨a, m, -, hf⟩ := bind_ok hrun
  exact h a m b d hf

theorem Yields.node {p : Parser α} {S : α → Prop} (h : Yields p S) : Yields (node p) S :=
  fun c a d hrun => h c a d (node_ok hrun)

theorem Yields.map {p : Parser α} {f : α → β} {S : β → Prop} (h : ∀ a, S (f a)) :
    Yields (f <$> p) S := by
  intro c b d hrun
  obtain ⟨a, -, rfl⟩ := map_ok hrun
  exact h a

/-- Alternatives that cannot return the result of a choice were passed over. -/
theorem passed_of_choiceFrom {ps more : List (Parser α)} {best : Option (Nat × Unexpected)}
    {c d : Cursor} {a : α} (h : choiceFrom best (ps ++ more) c = (.ok a, d))
    (hne : ∀ p ∈ ps, Yields p (· ≠ a)) : ∀ p ∈ ps, ∃ c', c'.rest = c.rest ∧ Passed p c' := by
  induction ps generalizing best c with
  | nil => exact List.forall_mem_nil _
  | cons q ps ih =>
    rcases choiceFrom_ok h with hq | ⟨hpassed, best', c', hrest, hps⟩
    · exact absurd rfl (hne q List.mem_cons_self c a d hq)
    · refine List.forall_mem_cons.mpr ⟨⟨c, rfl, hpassed⟩, fun p hp => ?_⟩
      rw [← hrest]
      exact ih hps (fun r hr => hne r (List.mem_cons_of_mem q hr)) p hp

theorem Onward.here : Onward here := fun c => Nat.le_refl c.taken

theorem Definite.listed (e : Expected) (p : Parser α) : Definite (listed e p) :=
  .bind (.optional _) fun _ => .pure _

theorem Onward.listed {p : Parser α} (hp : Onward p) (e : Expected) : Onward (listed e p) :=
  .bind (.optional (.bind hp fun _ => .bind (.many (.bind (.word _) fun _ => hp.need e)) fun _ =>
    .pure _)) fun _ => .pure _

end Parser

/-! ## Statements read on where they can -/

/-- No name stands next. -/
def Nameless (ts : List Token) : Prop := ∀ t ∈ ts.head?, t.kind = .name → t.value = "-"

namespace Grammar

open Script.Parser

theorem number_onward : Onward number := by
  refine .bind (.optional (.word _)) fun _ => .bind (.need (.choice fun p hp => ?_) _) fun _ => .pure _
  simp only [List.mem_cons, List.not_mem_nil, or_false] at hp
  rcases hp with rfl | rfl <;> exact .ofKind _

theorem term_onward : Onward term := by
  have hchoice : Onward (choice [TermForm.string <$> ofKind .string, TermForm.number <$> number,
      TermForm.name <$> name]) := by
    refine .choice fun p hp => ?_
    simp only [List.mem_cons, List.not_mem_nil, or_false] at hp
    rcases hp with rfl | rfl | rfl
    · exact .map (.ofKind _) _
    · exact .map number_onward _
    · exact .map (.ofKind _) _
  exact .node (.bind .here fun _ => .bind hchoice fun _ => .pure _)

theorem asType_onward : Onward asType := .optional (.bind (.word _) fun _ => .need (.ofKind _) _)

theorem theWord_onward (w : Text) : Onward (theWord w) := .need (.word w) _

/-- A keyword of expressions and a name behind it are read as the beginning of an expression. -/
theorem exprParsers_engage {t n : Token} (ht : t.value ∈ exprKeywords) (hkind : n.kind = .name)
    (hvalue : n.value ≠ "-") (rest : List Token) :
    ∃ p ∈ exprParsers, Engages p 2 (t :: n :: rest) := by
  have hname : Accepts aName (· = n.value) (n :: rest) rest := (Accepts.ofKind hkind rest).need _
  have hterm := term_accepts_name hkind hvalue rest
  simp only [exprKeywords, List.mem_cons, List.not_mem_nil, or_false] at ht
  rcases ht with ht | ht | ht | ht | ht
  · exact ⟨_, .head _, .bind (.word ht _) fun _ => .bind hname fun _ => .zero (.pure _) (.pure _) _⟩
  · exact ⟨load, .tail _ (.head _), .node (.bind (.word ht _) fun _ => .bind hterm fun _ =>
      .zero (.bind (.optional _) fun _ => .pure _) (.bind asType_onward fun _ => .pure _) _)⟩
  · exact ⟨_, .tail _ (.tail _ (.head _)), .bind (.word ht _) fun _ => .bind hname fun _ =>
      .zero (.pure _) (.pure _) _⟩
  · refine ⟨_, .tail _ (.tail _ (.tail _ (.head _))), .map (.node (.bind (.word ht _) fun _ =>
      .bind hname fun _ => .zero ?_ ?_ _)) _⟩
    · exact .bind (.need _ _) fun _ => .bind (.listed _ _) fun _ => .bind (.need _ _) fun _ =>
        .bind (.optional _) fun _ => .pure _
    · exact .bind (theWord_onward _) fun _ => .bind (.listed term_onward _) fun _ =>
        .bind (theWord_onward _) fun _ => .bind asType_onward fun _ => .pure _
  · exact ⟨cast, .tail _ (.tail _ (.tail _ (.tail _ (.head _)))), .node (.bind (.word ht _) fun _ =>
      .bind hterm fun _ => .zero (.bind (.need _ _) fun _ => .bind (.need _ _) fun _ => .pure _)
        (.bind (theWord_onward _) fun _ => .bind (.need (.ofKind _) _) fun _ => .pure _) _)⟩

theorem exprParsers_ne_term (x : Term) : ∀ p ∈ exprParsers, Yields p (· ≠ .term x) := by
  intro p hp
  simp only [exprParsers, List.mem_cons, List.not_mem_nil, or_false] at hp
  rcases hp with rfl | rfl | rfl | rfl | rfl
  · exact .bind fun _ => .bind fun _ => .pure (by simp)
  · exact .node (.bind fun _ => .bind fun _ => .bind fun _ => .pure (by simp))
  · exact .bind fun _ => .bind fun _ => .pure (by simp)
  · exact .map (by simp)
  · exact .node (.bind fun _ => .bind fun _ => .bind fun _ => .bind fun _ => .pure (by simp))

theorem expr_readsOn : Reads expr fun x _ rest => x.readsOn → Nameless rest := by
  intro c x d hu hrun hon n hn hkind
  obtain ⟨pos, m, hhere, hrun'⟩ := bind_ok (node_ok hrun)
  obtain ⟨form, m', hchoice, hpure⟩ := bind_ok hrun'
  cases hhere
  obtain ⟨rfl, rfl⟩ := pure_ok hpure
  have hspelled := expr_reads c _ m' hu hrun
  obtain ⟨p, v, hform, hv⟩ : ∃ p v, form = .term ⟨p, .string v⟩ ∧ v ∈ exprKeywords := by
    rw [Expr.readsOn] at hon
    split at hon
    next p v heq => exact ⟨p, v, heq, List.contains_iff_mem.mp hon⟩
    next => cases hon
  subst hform
  obtain ⟨front, hc, hfits⟩ := hspelled
  cases hfits with
  | @cons _ t _ front ht hnil =>
    cases hnil
    by_contra hvalue
    obtain ⟨rest, hrest⟩ : ∃ rest, m'.rest = n :: rest := List.head?_eq_some_iff.mp hn
    rw [hrest] at hc
    obtain ⟨q, hq, hengages⟩ := exprParsers_engage (by rwa [ht.1]) hkind hvalue rest
    have hchoices : choiceFrom none (exprParsers ++ [ExprForm.term <$> term]) c = _ := hchoice
    obtain ⟨c', hc', hpassed⟩ := passed_of_choiceFrom hchoices (exprParsers_ne_term _) q hq
    exact hengages.not_passed (hc'.trans hc) hpassed

theorem binding_readsOn : Reads binding fun form _ rest => form.readsOn → Nameless rest := by
  intro c form d hu hrun hon
  obtain ⟨_, m₁, hlet, hrun⟩ := bind_ok (node_ok hrun)
  obtain ⟨name, m₂, hname, hrun⟩ := bind_ok hrun
  obtain ⟨_, m₃, hequals, hrun⟩ := bind_ok hrun
  obtain ⟨value, m₄, hvalue, hpure⟩ := bind_ok hrun
  obtain ⟨rfl, rfl⟩ := pure_ok hpure
  have hu₁ := hu.of_suffix (Reads.word (.keyword "let") rfl c () m₁ hu hlet).suffix
  have hu₂ := hu₁.of_suffix (aName_reads m₁ name m₂ hu₁ hname).suffix
  have hu₃ := hu₂.of_suffix (theWord_reads (.mark "=") rfl m₂ () m₃ hu₂ hequals).suffix
  exact expr_readsOn m₃ value m₄ hu₃ hvalue hon

theorem exiting_readsOn : Reads exiting fun form _ rest => form.readsOn → Nameless rest := by
  intro c form d hu hrun hon n hn hkind
  obtain ⟨_, m, -, hrun⟩ := bind_ok (node_ok hrun)
  obtain ⟨code, m', hterm, hpure⟩ := bind_ok hrun
  obtain ⟨rfl, rfl⟩ := pure_ok hpure
  rcases optional_ok term_definite.steady hterm with ⟨_, rfl, -⟩ | ⟨rfl, hrest, _, _, hfails⟩
  · cases hon
  · by_contra hvalue
    rw [hrest] at hn
    obtain ⟨rest, hm⟩ : ∃ rest, m.rest = n :: rest := List.head?_eq_some_iff.mp hn
    obtain ⟨a, b, haccepts, -⟩ := term_accepts_name hkind hvalue rest m hm
    cases haccepts.symm.trans hfails

theorem stmtParsers_readsOn : Reads (choice stmtParsers) fun form _ rest =>
    form.readsOn → Nameless rest := by
  have hyields : ∀ {p : Parser StmtForm}, Yields p (·.readsOn = false) →
      Reads p fun form _ rest => form.readsOn → Nameless rest := by
    intro p hp c form d _ hrun hon
    rw [hp c form d hrun] at hon
    cases hon
  refine .choice fun p hp => ?_
  simp only [stmtParsers, List.mem_cons, List.not_mem_nil, or_false] at hp
  rcases hp with rfl | rfl | rfl | rfl | rfl | rfl | rfl | rfl | rfl | rfl
  · exact hyields (.node (.bind fun _ => .bind fun _ => .bind fun _ => .bind fun _ => .bind fun _ =>
      .pure rfl))
  · exact hyields (.node (.bind fun _ => .bind fun _ => .bind fun _ => .pure rfl))
  · exact hyields (.node (.bind fun _ => .bind fun _ => .bind fun _ => .pure rfl))
  · exact binding_readsOn
  · exact hyields (.map fun _ => rfl)
  · exact hyields (.bind fun _ => .bind fun _ => .pure rfl)
  · exact hyields (.node (.bind fun _ => .bind fun _ => .pure rfl))
  · exact hyields (.node (.bind fun _ => .bind fun _ => .pure rfl))
  · exact hyields (.bind fun _ => .bind fun _ => .pure rfl)
  · exact exiting_readsOn

end Grammar

/-- The tokens spell the statement, and no name stands behind it if it could take one. -/
def Stmt.ReadFrom (s : Stmt) (ts rest : List Token) : Prop :=
  Spelled s.words ts rest ∧ (s.readsOn → Nameless rest)

theorem Grammar.stmt_readFrom : Parser.Reads stmt Stmt.ReadFrom := by
  intro c s d hu hrun
  refine ⟨stmt_reads c s d hu hrun, ?_⟩
  obtain ⟨pos, m, hhere, hrun⟩ := Parser.bind_ok (Parser.node_ok hrun)
  obtain ⟨form, m', hchoice, hpure⟩ := Parser.bind_ok hrun
  cases hhere
  obtain ⟨rfl, rfl⟩ := Parser.pure_ok hpure
  exact stmtParsers_readsOn c form m' hu hchoice

/-! ## Printed scripts -/

theorem Spelled.eq_of_shows {ws : List Word} {ts mid mid' : List Token} (h : Spelled ws ts mid)
    (hs : Shows ws ts mid') : mid = mid' := by
  obtain ⟨front, rfl, hfront⟩ := h
  obtain ⟨front', heq, hfront'⟩ := hs
  exact (List.append_inj heq (hfront.length_eq.symm.trans hfront'.length_eq)).2

section

variable {α : Type} {words : α → List Word} {P : α → List Token → List Token → Prop}
  {xs : List α} {ts rest : List Token}

/-- What is spelled in tokens that show the words is spelled by its own share of them. -/
theorem Sequence.shown (hP : ∀ x ts rest, P x ts rest → Spelled (words x) ts rest)
    (h : Sequence P xs ts rest) (hs : Shows (xs.flatMap words) ts rest) :
    Sequence (fun x ts rest => P x ts rest ∧ Shows (words x) ts rest) xs ts rest := by
  induction h with
  | nil ts => exact .nil ts
  | @cons x xs ts mid rest first others ih =>
    rw [List.flatMap_cons] at hs
    obtain ⟨mid', hx, hxs⟩ := hs.of_append
    obtain rfl := (hP x ts mid first).eq_of_shows hx
    exact .cons ⟨first, hx⟩ (ih hxs)

theorem Sequence.forall_mem {Q : α → Prop} (hQ : ∀ x ts rest, P x ts rest → Q x)
    (h : Sequence P xs ts rest) : ∀ x ∈ xs, Q x := by
  induction h with
  | nil => exact List.forall_mem_nil _
  | cons first _ ih => exact List.forall_mem_cons.mpr ⟨hQ _ _ _ first, ih⟩

/-- Where a keyword follows, what was read does not read on. -/
theorem Sequence.clear (readsOn : α → Bool)
    (hwords : ∀ x, ∃ w ws, words x = .keyword w :: ws ∧ w ≠ "-")
    (hP : ∀ x ts rest, P x ts rest → Shows (words x) ts rest ∧ (readsOn x → Nameless rest))
    (h : Sequence P xs ts rest) : ∀ x ∈ xs.dropLast, readsOn x = false := by
  induction h with
  | nil => exact List.forall_mem_nil _
  | @cons x xs ts mid rest first others ih =>
    cases others with
    | nil => exact List.forall_mem_nil _
    | @cons y ys _ mid' _ second others =>
      refine List.forall_mem_cons.mpr ⟨?_, ih⟩
      obtain ⟨w, ws, hy, hw⟩ := hwords y
      have hsecond := (hP y mid mid' second).1
      rw [hy] at hsecond
      obtain ⟨t, mid'', rfl, ht, -⟩ := hsecond.of_cons
      by_contra hon
      have hnameless := (hP x ts _ first).2 (Bool.not_eq_false _ ▸ hon)
      exact hw (ht.1.symm.trans (hnameless t rfl (List.mem_singleton.mp ht.2)))

end

theorem Item.isClear_of_spelled {i : Item} {ts rest : List Token} (h : i.SpelledBy Stmt.ReadFrom ts rest)
    (hs : Shows i.words ts rest) : i.isClear := by
  cases i with
  | stmt s => rfl
  | func f =>
    obtain ⟨start, stop, hhead, hbody, hlast⟩ := h
    have hwords : Shows (f.headWords ++ (f.body.flatMap (·.words) ++ [Word.mark "\x7d"])) ts rest := by
      rw [← List.append_assoc]
      exact hs
    obtain ⟨mid, hshown, hwords⟩ := hwords.of_append
    obtain rfl := hhead.eq_of_shows hshown
    obtain ⟨mid', hshown, -⟩ := hwords.of_append
    have hspelled : ∀ s ts rest, Stmt.ReadFrom s ts rest → Spelled s.words ts rest := fun _ _ _ h => h.1
    obtain rfl := (hbody.spelled hspelled).eq_of_shows hshown
    have hclear := (hbody.shown hspelled hshown).clear Stmt.readsOn (fun s => ?_)
      fun s ts rest h => ⟨h.2, h.1.2⟩
    · simpa [isClear] using hclear
    · obtain ⟨w, hw, ws, hs⟩ := Grammar.stmt_words s
      exact ⟨w, ws, hs, fun hminus => absurd (hminus ▸ hw) (by decide)⟩

theorem isClear_of_sequence {is : List Item} {ts : List Token}
    (h : Sequence (fun i => i.SpelledBy Stmt.ReadFrom) is ts []) (hs : Shows (is.flatMap Item.words) ts []) :
    (∀ i ∈ is.dropLast, i.readsOn = false) ∧ ∀ i ∈ is, i.isClear := by
  have hshown := h.shown (fun i ts rest h => Item.SpelledBy.spelled (fun _ _ _ h => h.1) h) hs
  refine ⟨hshown.clear Item.readsOn (fun i => ?_) fun i ts rest hi => ⟨hi.2, fun hon => ?_⟩,
    hshown.forall_mem fun i ts rest hi => Item.isClear_of_spelled hi.1 hi.2⟩
  · obtain ⟨w, hw, ws, hi⟩ := Grammar.item_words i
    exact ⟨w, ws, hi, fun hminus => absurd (hminus ▸ hw) (by decide)⟩
  · cases i with
    | func f => cases hon
    | stmt s => exact hi.1.2 hon

theorem parse_nil_ne_ok (s : Script) : parse [] ≠ .ok s := by
  have hempty : (parse []).toOption = none := by decide +kernel
  intro h
  rw [h] at hempty
  cases hempty

/-- There is no script in an empty text. -/
theorem items_of_parse_text {s s' : Script} (h : parse s.text = .ok s') :
    s.width.isSome || !s.items.isEmpty := by
  by_contra hnone
  simp only [Bool.or_eq_true, Bool.not_eq_true', not_or, Bool.not_eq_true, Option.isSome_eq_false_iff,
    Option.isNone_iff_eq_none, Bool.not_eq_false, List.isEmpty_iff] at hnone
  have htext : s.text = [] := by
    rw [text, hnone.1, hnone.2]
    rfl
  rw [htext] at h
  exact parse_nil_ne_ok s' h

theorem isClear_of_parse_text {s s' : Script} (hs : s.isWritable) (h : parse s.text = .ok s')
    (hbare : s'.bare = s.bare) : s.isClear := by
  have hspelled : ∀ s ts rest, Stmt.ReadFrom s ts rest → Spelled s.words ts rest := fun _ _ _ h => h.1
  obtain ⟨_, eof, htokens, header, body, rfl, -, hitems⟩ :=
    spelledBy_of_parse hspelled Grammar.stmt_readFrom h
  obtain ⟨_, _, htokens', hshown⟩ := tokens_text hs
  cases htokens.symm.trans htokens'
  have hwords : s'.items.flatMap Item.words = s.items.flatMap Item.words := by
    rw [← flatMap_words_bare, hbare, flatMap_words_bare]
  rw [← hwords] at hshown
  have hshows : Shows (widthWords s.width ++ s'.items.flatMap Item.words) (header ++ body) [] :=
    ⟨header ++ body, (List.append_nil _).symm, hshown⟩
  obtain ⟨mid, ⟨front, hfront, -⟩, hmid⟩ := hshows.of_append
  have hlength : body.length = mid.length := by
    have hbody := hitems.spelled fun i ts rest h => Item.SpelledBy.spelled hspelled h
    obtain ⟨all, rfl, hall⟩ := hbody
    rw [List.append_nil, hmid.length, hall.length_eq]
    rfl
  obtain rfl := (List.append_inj' hfront hlength).2
  obtain ⟨hon, hclear⟩ := isClear_of_sequence hitems hmid
  have hsome : s'.width.isSome || !s'.items.isEmpty := by
    have hwidth : s'.width = s.width := by
      show s'.bare.width = s.bare.width
      rw [hbare]
    have hempty : s'.items.isEmpty = s.items.isEmpty := by
      simpa [bare] using congrArg (·.items.isEmpty) hbare
    rw [hwidth, hempty]
    exact items_of_parse_text h
  rw [← isClear_bare, ← hbare, isClear_bare, isClear]
  simp only [Bool.and_eq_true, List.all_eq_true, Bool.not_eq_true']
  exact ⟨⟨hsome, hon⟩, hclear⟩

/-- **Round trip.**  The text of a script is read as the script, but for positions, exactly if no
statement in it reads on. -/
theorem parse_text_iff {s : Script} (hs : s.isWritable) :
    (∃ s', parse s.text = .ok s' ∧ s'.bare = s.bare) ↔ s.isClear :=
  ⟨fun ⟨_, h, hbare⟩ => isClear_of_parse_text hs h hbare, parse_text_of_isClear hs⟩

/-- A function that ends in an `exit` without a code, and a `print` of a keyword. -/
def clearScript : Script :=
  ⟨.nowhere, some .bits64,
    [ .func ⟨.nowhere, "stop", [⟨.nowhere, "code", "int32"⟩],
        [ ⟨.nowhere, .bind "r" ⟨.nowhere, .call ⟨"f", [⟨.nowhere, .number "-0x1F"⟩], some "int32"⟩⟩⟩
        , ⟨.nowhere, .exit none⟩ ]⟩
    , .stmt ⟨.nowhere, .print ⟨.nowhere, .string "load"⟩⟩ ], []⟩

/-- An `exit` without a code in front of a `print`. -/
def exitingScript : Script :=
  ⟨.nowhere, none,
    [ .stmt ⟨.nowhere, .exit none⟩, .stmt ⟨.nowhere, .print ⟨.nowhere, .number "1"⟩⟩ ], []⟩

theorem parse_text_iff_exiting :
    (∃ s', parse clearScript.text = .ok s' ∧ s'.bare = clearScript.bare) ∧
      ¬∃ s', parse exitingScript.text = .ok s' ∧ s'.bare = exitingScript.bare :=
  ⟨(parse_text_iff (by decide +kernel)).mpr (by decide +kernel),
    fun h => absurd ((parse_text_iff (by decide +kernel)).mp h) (by decide +kernel)⟩

end Assembly.Script
