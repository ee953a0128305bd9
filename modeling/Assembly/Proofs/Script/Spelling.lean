import Mathlib.Data.List.Forall2
import Assembly.Proofs.Script.Acceptance
import Assembly.Proofs.Script.Lexing
import Assembly.Proofs.Script.Parser

/-!
# How scripts are spelled

Every part of a script calls for certain words in a certain order.  The grammar takes exactly
the tokens that spell the words of what it returns, so that an accepted script accounts for
every token of its text.

Keywords and marks are known by their value alone, so a token of any kind may stand for them;
names, strings and numbers are known by their kind.
-/

namespace Assembly.Script

/-! ## Words -/

/-- What a token may be called for as. -/
inductive Word
  | keyword (w : Text)
  | mark (w : Text)
  | name (v : Text)
  | string (v : Text)
  | number (v : Text)
  | int (v : Text)
deriving DecidableEq, Repr

namespace Word

def value : Word → Text
  | keyword w => w
  | mark w => w
  | name v => v
  | string v => v
  | number v => v
  | int v => v

/-- The kinds of the tokens that the text of a script has for the word. -/
def kinds : Word → List TokenKind
  | keyword _ => [.name]
  | mark _ => [.mark]
  | name _ => [.name]
  | string _ => [.string]
  | number _ => [.int, .float]
  | int _ => [.int]

/-- Words that are known by their value, whatever the kind of the token. -/
def isFixed : Word → Bool
  | keyword _ => true
  | mark _ => true
  | _ => false

/-- The token can be read as the word. -/
def Fits (w : Word) (t : Token) : Prop := t.value = w.value ∧ (w.isFixed ∨ t.kind ∈ w.kinds)

end Word

/-- A number stands behind its minus sign, which is a token of its own. -/
def numeralWords : Text → List Word
  | 45 :: digits => [.mark "-", .number digits]
  | digits => [.number digits]

def TermForm.words : TermForm → List Word
  | string t => [.string t]
  | number t => numeralWords t
  | name t => [.name t]

def Term.words (x : Term) : List Word := x.form.words

def asWords : Option Text → List Word
  | some type => [.keyword "as", .name type]
  | none => []

/-- The words of the members of a list, with commas between them. -/
def listWords : List (List Word) → List Word
  | [] => []
  | ws :: rest => ws ++ rest.flatMap (Word.mark "," :: ·)

def CallForm.words (c : CallForm) : List Word :=
  [Word.keyword "call", Word.name c.name, Word.mark "("] ++ listWords (c.args.map (·.words)) ++
    [Word.mark ")"] ++ asWords c.type

def ExprForm.words : ExprForm → List Word
  | param name => [.keyword "param", .name name]
  | load value type => [Word.keyword "load"] ++ value.words ++ asWords type
  | alloc type => [.keyword "alloc", .name type]
  | call c => c.words
  | cast value type => [Word.keyword "cast"] ++ value.words ++ [Word.keyword "to", Word.name type]
  | term value => value.words

def Expr.words (x : Expr) : List Word := x.form.words

def StmtForm.words : StmtForm → List Word
  | const name type value =>
    [Word.keyword "const", Word.name name] ++ type.toList.map Word.name ++ [Word.mark "="] ++
      value.words
  | globalVar name type => [.keyword "global", .name name, .name type]
  | localVar name type => [.keyword "local", .name name, .name type]
  | bind name value => [Word.keyword "let", Word.name name, Word.mark "="] ++ value.words
  | call c => c.words
  | print value => [Word.keyword "print"] ++ value.words
  | asm code => [.keyword "asm", .string code]
  | free name => [.keyword "free", .name name]
  | ret value => [Word.keyword "return"] ++ value.words
  | exit code => [Word.keyword "exit"] ++ code.toList.flatMap (·.words)

def Stmt.words (s : Stmt) : List Word := s.form.words

def Formal.words (p : Formal) : List Word := [.name p.name, .name p.type]

/-- The words of a function in front of its body. -/
def Func.headWords (f : Func) : List Word :=
  [Word.keyword "func", Word.name f.name, Word.mark "("] ++ listWords (f.params.map (·.words)) ++
    [Word.mark ")", Word.mark "\x7b"]

def Func.words (f : Func) : List Word :=
  f.headWords ++ f.body.flatMap (·.words) ++ [Word.mark "\x7d"]

def Item.words : Item → List Word
  | func f => f.words
  | stmt s => s.words

/-! ## Tokens that spell words -/

/-- The tokens `ts` begin with tokens that can be read as the words, and `rest` follows. -/
def Spelled (ws : List Word) (ts rest : List Token) : Prop :=
  ∃ front, ts = front ++ rest ∧ List.Forall₂ Word.Fits ws front

namespace Spelled

theorem nil (ts : List Token) : Spelled [] ts ts := ⟨[], rfl, .nil⟩

theorem single {w : Word} {t : Token} {ts rest : List Token} (h : ts = t :: rest) (ht : w.Fits t) :
    Spelled [w] ts rest := ⟨[t], h, .cons ht .nil⟩

theorem append {ws vs : List Word} {ts mid rest : List Token} (h : Spelled ws ts mid)
    (h' : Spelled vs mid rest) : Spelled (ws ++ vs) ts rest := by
  obtain ⟨front, rfl, hfront⟩ := h
  obtain ⟨back, rfl, hback⟩ := h'
  exact ⟨front ++ back, by rw [List.append_assoc], List.rel_append hfront hback⟩

theorem cons {w : Word} {vs : List Word} {ts mid rest : List Token} (h : Spelled [w] ts mid)
    (h' : Spelled vs mid rest) : Spelled (w :: vs) ts rest := h.append h'

theorem suffix {ws : List Word} {ts rest : List Token} (h : Spelled ws ts rest) : rest <:+ ts := by
  obtain ⟨front, rfl, -⟩ := h
  exact List.suffix_append front rest

end Spelled

/-- A list of things that the tokens spell one after another, each by `P`. -/
inductive Sequence {α : Type} (P : α → List Token → List Token → Prop) :
    List α → List Token → List Token → Prop
  | nil (ts : List Token) : Sequence P [] ts ts
  | cons {a : α} {as : List α} {ts mid rest : List Token} (first : P a ts mid)
    (others : Sequence P as mid rest) : Sequence P (a :: as) ts rest

theorem Sequence.spelled {α : Type} {P : α → List Token → List Token → Prop}
    {words : α → List Word} (h : ∀ a ts rest, P a ts rest → Spelled (words a) ts rest)
    {as : List α} {ts rest : List Token} (hs : Sequence P as ts rest) :
    Spelled (as.flatMap words) ts rest := by
  induction hs with
  | nil ts => exact .nil ts
  | cons first _ ih =>
    rw [List.flatMap_cons]
    exact (h _ _ _ first).append ih

theorem Unsigned.of_suffix {ts rest : List Token} (h : Unsigned ts) (hs : rest <:+ ts) :
    Unsigned rest := fun t ht => h t (hs.subset ht)

namespace Parser

variable {α β : Type}

/-- Whatever the parser returns is spelled, by `P`, by the tokens it takes. -/
def Reads (p : Parser α) (P : α → List Token → List Token → Prop) : Prop :=
  ∀ c a d, Unsigned c.rest → p c = (.ok a, d) → P a c.rest d.rest

/-- The parser goes on behind tokens that spell `ws`, and whatever it returns is spelled, by `P`,
by all of them together. -/
def Completes (p : Parser α) (ws : List Word) (P : α → List Token → List Token → Prop) : Prop :=
  ∀ ts c a d, Unsigned c.rest → Spelled ws ts c.rest → p c = (.ok a, d) → P a ts d.rest

theorem Completes.pure {a : α} {ws : List Word} {words : α → List Word} (h : words a = ws) :
    Completes (pure a) ws fun a => Spelled (words a) := by
  intro ts c b d _ hws hp
  obtain ⟨rfl, rfl⟩ := pure_ok hp
  rwa [h]

theorem Completes.bind {p : Parser α} {f : α → Parser β} {ws : List Word} {first : α → List Word}
    {P : β → List Token → List Token → Prop} (hp : Reads p fun a => Spelled (first a))
    (hf : ∀ a, Completes (f a) (ws ++ first a) P) : Completes (p >>= f) ws P := by
  intro ts c b d hu hws h
  obtain ⟨a, m, hpa, hfa⟩ := bind_ok h
  have hfirst := hp c a m hu hpa
  exact hf a ts m b d (hu.of_suffix hfirst.suffix) (hws.append hfirst) hfa

theorem Completes.reads {p : Parser α} {P : α → List Token → List Token → Prop}
    (h : Completes p [] P) : Reads p P := fun c a d hu hp => h c.rest c a d hu (.nil _) hp

theorem Reads.completes {p : Parser α} {ws : List Word} {first words : α → List Word}
    (h : Reads p fun a => Spelled (first a)) (hwords : ∀ a, words a = ws ++ first a) :
    Completes p ws fun a => Spelled (words a) := by
  intro ts c a d hu hws hp
  rw [hwords]
  exact hws.append (h c a d hu hp)

theorem Reads.word (called : Word) (hf : called.isFixed) :
    Reads (word called.value) fun _ => Spelled [called] := by
  intro c a d _ h
  obtain ⟨t, hvalue, hrest⟩ := word_ok h
  exact .single hrest ⟨hvalue, .inl hf⟩

theorem Reads.ofKind {k : TokenKind} (called : Text → Word) (hv : ∀ v, (called v).value = v)
    (hk : ∀ v, k ∈ (called v).kinds) : Reads (ofKind k) fun v => Spelled [called v] := by
  intro c v d _ h
  obtain ⟨t, hkind, rfl, hrest⟩ := ofKind_ok h
  exact .single hrest ⟨(hv t.value).symm, .inr (hkind ▸ hk t.value)⟩

theorem Reads.here : Reads here fun _ => Spelled [] := by
  intro c a d _ h
  cases h
  exact .nil _

theorem Reads.need {p : Parser α} {P : α → List Token → List Token → Prop} (h : Reads p P)
    (e : Expected) : Reads (need e p) P := fun c a d hu hp => h c a d hu (need_ok hp)

theorem Reads.node {p : Parser α} {P : α → List Token → List Token → Prop} (h : Reads p P) :
    Reads (node p) P := fun c a d hu hp => h c a d hu (node_ok hp)

theorem Reads.map {p : Parser α} {first : α → List Word} (h : Reads p fun a => Spelled (first a))
    {f : α → β} {words : β → List Word} (hf : ∀ a, words (f a) = first a) :
    Reads (f <$> p) fun b => Spelled (words b) := by
  intro c b d hu hp
  obtain ⟨a, hpa, rfl⟩ := map_ok hp
  rw [hf]
  exact h c a d hu hpa

theorem Reads.choice {ps : List (Parser α)} {P : α → List Token → List Token → Prop}
    (h : ∀ p ∈ ps, Reads p P) : Reads (choice ps) P := by
  have hfrom : ∀ best, Reads (choiceFrom best ps) P := by
    induction ps with
    | nil =>
      intro best c a d _ hrun
      exact absurd hrun choiceFrom_nil_ne_ok
    | cons p ps ih =>
      intro best c a d hu hrun
      rcases choiceFrom_ok hrun with hp | ⟨-, best', c', hrest, hps⟩
      · exact h p List.mem_cons_self c a d hu hp
      · rw [← hrest] at hu ⊢
        exact ih (fun q hq => h q (List.mem_cons_of_mem p hq)) best' c' a d hu hps
  exact hfrom none

theorem Reads.optional {p : Parser α} {words : α → List Word} (h : Reads p fun a => Spelled (words a))
    (hp : Steady p) : Reads (optional p) fun o => Spelled (o.toList.flatMap words) := by
  intro c o d hu hrun
  rcases optional_ok hp hrun with ⟨a, rfl, hpa⟩ | ⟨rfl, hrest, -⟩
  · have ha := h c a d hu hpa
    simpa using ha
  · rw [hrest]
    exact .nil _

theorem Reads.repeated {p : Parser α} {P : α → List Token → List Token → Prop} (h : Reads p P)
    (hp : Steady p) (hP : ∀ a ts rest, P a ts rest → rest <:+ ts) (fuel : Nat) :
    Reads (repeated p fuel) (Sequence P) := by
  induction fuel with
  | zero =>
    intro c as d _ hrun
    obtain ⟨rfl, rfl⟩ := pure_ok hrun
    exact .nil _
  | succ fuel ih =>
    intro c as d hu hrun
    obtain ⟨o, m, hopt, hrun⟩ := bind_ok hrun
    rcases optional_ok hp hopt with ⟨a, rfl, hpa⟩ | ⟨rfl, hrest, -⟩
    · obtain ⟨as', m', hrep, hpure⟩ := bind_ok hrun
      obtain ⟨rfl, rfl⟩ := pure_ok hpure
      have hfirst := h c a m hu hpa
      exact .cons hfirst (ih m as' m' (hu.of_suffix (hP _ _ _ hfirst)) hrep)
    · obtain ⟨rfl, rfl⟩ := pure_ok hrun
      rw [hrest]
      exact .nil _

theorem Reads.many {p : Parser α} {P : α → List Token → List Token → Prop} (h : Reads p P)
    (hp : Steady p) (hP : ∀ a ts rest, P a ts rest → rest <:+ ts) :
    Reads (many p) (Sequence P) :=
  fun c as d hu hrun => Reads.repeated h hp hP _ c as d hu hrun

theorem Reads.listed {p : Parser α} {words : α → List Word}
    (h : Reads p fun a => Spelled (words a)) (hp : Steady p) (e : Expected) :
    Reads (listed e p) fun as => Spelled (listWords (as.map words)) := by
  have hother : Reads (do Parser.word ","; Parser.need e p) fun a =>
      Spelled (Word.mark "," :: words a) :=
    Completes.reads (.bind (.word (.mark ",") rfl) fun _ => (h.need e).completes fun _ => rfl)
  have hmany := hother.many (.bind (.word _) fun _ => .need e p) fun _ _ _ h => h.suffix
  have hothers : Reads (Parser.many (do Parser.word ","; Parser.need e p)) fun others =>
      Spelled (others.flatMap (Word.mark "," :: words ·)) :=
    fun c as d hu hrun => (hmany c as d hu hrun).spelled fun _ _ _ h => h
  have hlist : Reads (do
      let a ← p
      let others ← Parser.many (do Parser.word ","; Parser.need e p)
      pure (a :: others)) fun as => Spelled (listWords (as.map words)) :=
    Completes.reads (.bind h fun a => .bind hothers fun others =>
      .pure (by simp [listWords, List.flatMap_map]))
  intro c as d hu hrun
  obtain ⟨o, m, hopt, hpure⟩ := bind_ok hrun
  obtain ⟨rfl, rfl⟩ := pure_ok hpure
  have hsteady := Steady.bind hp fun a => Definite.bind
    (.many (do Parser.word ","; Parser.need e p)) fun others => .pure (a :: others)
  rcases optional_ok hsteady hopt with ⟨as, rfl, has⟩ | ⟨rfl, hrest, -⟩
  · exact hlist c as m hu has
  · rw [hrest]
    exact .nil _

end Parser

/-! ## The grammar -/

namespace Grammar

open Script.Parser

theorem name_reads : Reads name fun v => Spelled [Word.name v] :=
  .ofKind Word.name (fun _ => rfl) fun _ => .head _

theorem aName_reads : Reads aName fun v => Spelled [Word.name v] := name_reads.need _

theorem theWord_reads (called : Word) (hf : called.isFixed) :
    Reads (theWord called.value) fun _ => Spelled [called] := (Reads.word called hf).need _

theorem digits_reads : Reads (need .number (choice [ofKind .float, ofKind .int])) fun v =>
    Spelled [Word.number v] := by
  refine (Reads.choice fun p hp => ?_).need _
  simp only [List.mem_cons, List.not_mem_nil, or_false] at hp
  rcases hp with rfl | rfl
  · exact .ofKind Word.number (fun _ => rfl) fun _ => .tail _ (.head _)
  · exact .ofKind Word.number (fun _ => rfl) fun _ => .head _

/-- The minus sign is told from the digits because no number token has one. -/
theorem numeralWords_of_unsigned {v : Text} {ts rest : List Token} (hu : Unsigned ts)
    (h : Spelled [Word.number v] ts rest) : numeralWords v = [Word.number v] := by
  obtain ⟨front, rfl, hfront⟩ := h
  cases hfront with
  | @cons _ t _ _ ht hnil =>
    obtain ⟨hvalue, hfixed | hkind⟩ := ht
    · cases hfixed
    have hhead := hu t (by simp) hkind
    rw [hvalue] at hhead
    rw [numeralWords.eq_def]
    split
    next => exact absurd rfl hhead
    next => rfl

theorem number_reads : Reads number fun v => Spelled (numeralWords v) := by
  intro c v d hu h
  obtain ⟨minus, m, hminus, h⟩ := bind_ok h
  obtain ⟨digits, m', hdigits, hpure⟩ := bind_ok h
  obtain ⟨rfl, rfl⟩ := pure_ok hpure
  rcases optional_ok (.word _) hminus with ⟨_, rfl, hword⟩ | ⟨rfl, hrest, -⟩
  · have hsign := Reads.word (.mark "-") rfl c () m hu hword
    exact hsign.cons (digits_reads m digits m' (hu.of_suffix hsign.suffix) hdigits)
  · rw [← hrest] at hu ⊢
    have hread := digits_reads m digits m' hu hdigits
    show Spelled (numeralWords digits) _ _
    rwa [numeralWords_of_unsigned hu hread]

theorem string_reads : Reads (ofKind .string) fun v => Spelled [Word.string v] :=
  .ofKind Word.string (fun _ => rfl) fun _ => .head _

theorem term_reads : Reads term fun x => Spelled x.words := by
  have hform : Reads (choice
      [ TermForm.string <$> ofKind .string
      , TermForm.number <$> number
      , TermForm.name <$> name ]) fun form => Spelled form.words := by
    refine .choice fun p hp => ?_
    simp only [List.mem_cons, List.not_mem_nil, or_false] at hp
    rcases hp with rfl | rfl | rfl
    · exact string_reads.map fun _ => rfl
    · exact number_reads.map fun _ => rfl
    · exact name_reads.map fun _ => rfl
  exact Reads.node (Completes.reads (.bind .here fun _ => .bind hform fun _ => .pure rfl))

theorem number_definite : Definite number :=
  .bind (.optional _) fun _ => .bind (.need _ _) fun _ => .pure _

/-- Whatever stands there, a term is never just absent: it might have been a number. -/
theorem term_definite : Definite term :=
  .node (.bind .here fun _ => .bind (.choice (number_definite.map TermForm.number) (by simp))
    fun _ => .pure _)

theorem asType_reads : Reads asType fun type => Spelled (asWords type) := by
  have htype : Reads (do word "as"; aName) fun v => Spelled [Word.keyword "as", Word.name v] :=
    Completes.reads (.bind (.word (.keyword "as") rfl) fun _ => aName_reads.completes fun _ => rfl)
  intro c type d hu h
  have hread := htype.optional (.bind (.word _) fun _ => .need _ _) c type d hu h
  cases type <;> exact hread

theorem terms_reads : Reads (listed .number term) fun args =>
    Spelled (listWords (args.map (·.words))) := term_reads.listed term_definite.steady _

theorem call_reads : Reads call fun x => Spelled x.words :=
  Reads.node (Completes.reads (.bind (.word (.keyword "call") rfl) fun _ => .bind aName_reads fun _ =>
    .bind (theWord_reads (.mark "(") rfl) fun _ => .bind terms_reads fun _ =>
    .bind (theWord_reads (.mark ")") rfl) fun _ => .bind asType_reads fun _ => .pure rfl))

theorem load_reads : Reads load fun x => Spelled x.words :=
  Reads.node (Completes.reads (.bind (.word (.keyword "load") rfl) fun _ => .bind term_reads fun _ =>
    .bind asType_reads fun _ => .pure rfl))

theorem cast_reads : Reads cast fun x => Spelled x.words :=
  Reads.node (Completes.reads (.bind (.word (.keyword "cast") rfl) fun _ => .bind term_reads fun _ =>
    .bind (theWord_reads (.keyword "to") rfl) fun _ => .bind aName_reads fun _ =>
    .pure (by simp [ExprForm.words])))

theorem expr_reads : Reads expr fun x => Spelled x.words := by
  have hform : Reads (choice
      [ do word "param"; return .param (← aName)
      , load
      , do word "alloc"; return .alloc (← aName)
      , ExprForm.call <$> call
      , cast
      , ExprForm.term <$> term ]) fun form => Spelled form.words := by
    refine .choice fun p hp => ?_
    simp only [List.mem_cons, List.not_mem_nil, or_false] at hp
    rcases hp with rfl | rfl | rfl | rfl | rfl | rfl
    · exact Completes.reads (.bind (.word (.keyword "param") rfl) fun _ => .bind aName_reads fun _ =>
        .pure rfl)
    · exact load_reads
    · exact Completes.reads (.bind (.word (.keyword "alloc") rfl) fun _ => .bind aName_reads fun _ =>
        .pure rfl)
    · exact call_reads.map fun _ => rfl
    · exact cast_reads
    · exact term_reads.map fun _ => rfl
  exact Reads.node (Completes.reads (.bind .here fun _ => .bind hform fun _ => .pure rfl))

theorem type_reads : Reads (optional name) fun type => Spelled (type.toList.map Word.name) := by
  intro c type d hu h
  have hread := name_reads.optional (.ofKind _) c type d hu h
  cases type <;> exact hread

theorem constDecl_reads : Reads constDecl fun x => Spelled x.words :=
  Reads.node (Completes.reads (.bind (.word (.keyword "const") rfl) fun _ => .bind aName_reads fun _ =>
    .bind type_reads fun _ => .bind (theWord_reads (.mark "=") rfl) fun _ => .bind term_reads fun _ =>
    .pure rfl))

theorem globalDecl_reads : Reads globalDecl fun x => Spelled x.words :=
  Reads.node (Completes.reads (.bind (.word (.keyword "global") rfl) fun _ => .bind aName_reads fun _ =>
    .bind aName_reads fun _ => .pure rfl))

theorem localDecl_reads : Reads localDecl fun x => Spelled x.words :=
  Reads.node (Completes.reads (.bind (.word (.keyword "local") rfl) fun _ => .bind aName_reads fun _ =>
    .bind aName_reads fun _ => .pure rfl))

theorem binding_reads : Reads binding fun x => Spelled x.words :=
  Reads.node (Completes.reads (.bind (.word (.keyword "let") rfl) fun _ => .bind aName_reads fun _ =>
    .bind (theWord_reads (.mark "=") rfl) fun _ => .bind expr_reads fun _ => .pure rfl))

theorem asmCode_reads : Reads asmCode fun x => Spelled x.words :=
  Reads.node (Completes.reads (.bind (.word (.keyword "asm") rfl) fun _ =>
    .bind (string_reads.need _) fun _ => .pure rfl))

theorem freeing_reads : Reads freeing fun x => Spelled x.words :=
  Reads.node (Completes.reads (.bind (.word (.keyword "free") rfl) fun _ => .bind aName_reads fun _ =>
    .pure rfl))

theorem exiting_reads : Reads exiting fun x => Spelled x.words :=
  Reads.node (Completes.reads (.bind (.word (.keyword "exit") rfl) fun _ =>
    .bind (term_reads.optional term_definite.steady) fun _ => .pure rfl))

theorem stmt_reads : Reads stmt fun x => Spelled x.words := by
  have hform : Reads (choice
      [ constDecl
      , globalDecl
      , localDecl
      , binding
      , StmtForm.call <$> call
      , do word "print"; return .print (← term)
      , asmCode
      , freeing
      , do word "return"; return .ret (← term)
      , exiting ]) fun form => Spelled form.words := by
    refine .choice fun p hp => ?_
    simp only [List.mem_cons, List.not_mem_nil, or_false] at hp
    rcases hp with rfl | rfl | rfl | rfl | rfl | rfl | rfl | rfl | rfl | rfl
    · exact constDecl_reads
    · exact globalDecl_reads
    · exact localDecl_reads
    · exact binding_reads
    · exact call_reads.map fun _ => rfl
    · exact Completes.reads (.bind (.word (.keyword "print") rfl) fun _ => .bind term_reads fun _ =>
        .pure rfl)
    · exact asmCode_reads
    · exact freeing_reads
    · exact Completes.reads (.bind (.word (.keyword "return") rfl) fun _ => .bind term_reads fun _ =>
        .pure rfl)
    · exact exiting_reads
  exact Reads.node (Completes.reads (.bind .here fun _ => .bind hform fun _ => .pure rfl))

theorem stmt_steady : Steady stmt :=
  .node (.here_bind fun _ => .bind (.choice _) fun _ => .pure _)

theorem formal_reads : Reads formal fun x => Spelled x.words :=
  Reads.node (Completes.reads (.bind .here fun _ => .bind name_reads fun _ => .bind aName_reads fun _ =>
    .pure rfl))

theorem formal_steady : Steady formal :=
  .node (.here_bind fun _ => .bind (.ofKind _) fun _ => .bind (.need _ _) fun _ => .pure _)

end Grammar

/-- A function is spelled by tokens in which the statements of its body are spelled by `P`. -/
def Func.SpelledBy (P : Stmt → List Token → List Token → Prop) (f : Func)
    (ts rest : List Token) : Prop :=
  ∃ start stop, Spelled f.headWords ts start ∧ Sequence P f.body start stop ∧
    Spelled [Word.mark "\x7d"] stop rest

def Item.SpelledBy (P : Stmt → List Token → List Token → Prop) : Item →
    List Token → List Token → Prop
  | func f => f.SpelledBy P
  | stmt s => P s

section

variable {P : Stmt → List Token → List Token → Prop}
  (hP : ∀ s ts rest, P s ts rest → Spelled s.words ts rest)
include hP

theorem Func.SpelledBy.spelled {f : Func} {ts rest : List Token} (h : f.SpelledBy P ts rest) :
    Spelled f.words ts rest := by
  obtain ⟨start, stop, hhead, hbody, hlast⟩ := h
  exact (hhead.append (hbody.spelled hP)).append hlast

theorem Item.SpelledBy.spelled {i : Item} {ts rest : List Token} (h : i.SpelledBy P ts rest) :
    Spelled i.words ts rest := by
  cases i with
  | func f => exact Func.SpelledBy.spelled hP h
  | stmt s => exact hP s ts rest h

namespace Grammar

open Script.Parser

variable (hstmt : Reads stmt P)
include hstmt

theorem func_reads : Reads func fun f => f.SpelledBy P := by
  refine Reads.node (Completes.reads (.bind .here fun _ => .bind (.word (.keyword "func") rfl) fun _ =>
    .bind aName_reads fun _ => .bind (theWord_reads (.mark "(") rfl) fun _ =>
    .bind (formal_reads.listed formal_steady _) fun _ => .bind (theWord_reads (.mark ")") rfl) fun _ =>
    .bind (theWord_reads (.mark "\x7b") rfl) fun _ => ?_))
  intro ts c f d hu hhead h
  obtain ⟨body, m, hbody, h⟩ := bind_ok h
  obtain ⟨_, m', hend, h⟩ := bind_ok h
  obtain ⟨rfl, rfl⟩ := pure_ok h
  have hsuffix : ∀ s ts rest, P s ts rest → rest <:+ ts := fun s ts rest h => (hP s ts rest h).suffix
  have hstmts := hstmt.many stmt_steady hsuffix c body m hu hbody
  have hlast := theWord_reads (.mark "\x7d") rfl m () m' (hu.of_suffix (hstmts.spelled hP).suffix) hend
  refine ⟨c.rest, m.rest, ?_, hstmts, hlast⟩
  simpa [Func.headWords] using hhead

theorem item_reads : Reads item fun i => i.SpelledBy P := by
  refine .node (.choice fun p hp => ?_)
  simp only [List.mem_cons, List.not_mem_nil, or_false] at hp
  rcases hp with rfl | rfl
  · intro c i d hu h
    obtain ⟨f, hf, rfl⟩ := map_ok h
    exact func_reads hP hstmt c f d hu hf
  · intro c i d hu h
    obtain ⟨s, hs, rfl⟩ := map_ok h
    exact hstmt c s d hu hs

theorem items_reads : Reads (many item) (Sequence fun i => i.SpelledBy P) :=
  (item_reads hP hstmt).many (.node (.choice _)) fun _ _ _ h => (Item.SpelledBy.spelled hP h).suffix

end Grammar

end

/-! ## Accepted scripts -/

/-- The tokens in front of the items of a script with the given width: none, or two that ask for
the width. -/
def WidthTokens (width : Option Target) : List Token → Prop
  | [] => width = none
  | [bits, n] => bits.value = "bits" ∧ n.kind = .int ∧ machine? (literalValue n.value) = .ok width
  | _ => False

/-- A script is spelled by tokens in which the statements are spelled by `P`. -/
def SpelledBy (P : Stmt → List Token → List Token → Prop) (s : Script) (ts : List Token) : Prop :=
  ∃ header rest, ts = header ++ rest ∧ WidthTokens s.width header ∧
    Sequence (fun i => i.SpelledBy P) s.items rest []

theorem widthTokens_of_width {c d : Cursor} {t : Text} (h : Grammar.width c = (.ok t, d))
    {bits : Nat} (hb : widthValue (some t) = .ok bits) {width : Option Target}
    (hm : machine? bits = .ok width) :
    ∃ header, c.rest = header ++ d.rest ∧ WidthTokens width header := by
  obtain ⟨_, m, hword, hneed⟩ := Parser.bind_ok h
  obtain ⟨b, hbits, hrest⟩ := Parser.word_ok hword
  obtain ⟨n, hkind, rfl, hrest'⟩ := Parser.ofKind_ok (Parser.need_ok hneed)
  refine ⟨[b, n], by rw [hrest, hrest']; rfl, hbits, hkind, ?_⟩
  rw [widthValue] at hb
  split at hb
  next =>
    cases hb
    exact hm
  next => cases hb

/-- What is read is spelled by the tokens it is read from. -/
theorem spelledBy_of_parse {P : Stmt → List Token → List Token → Prop}
    (hP : ∀ s ts rest, P s ts rest → Spelled s.words ts rest) (hstmt : Parser.Reads Grammar.stmt P)
    {source : Text} {s : Script} (h : parse source = .ok s) :
    ∃ ts eof, tokens source = .ok (ts, eof) ∧ s.SpelledBy P ts := by
  obtain ⟨ts, eof, bits, width, htokens, hread, hmachine, -, hs⟩ := parse_eq_ok_iff.mp h
  obtain ⟨written, c, hrun, -, hbits, hend⟩ := readItems_eq_ok_iff.mp hread
  have hu := unsigned_tokens htokens
  obtain ⟨o, m, hwidth, hrun⟩ := Parser.bind_ok hrun
  obtain ⟨items, m', hitems, hpure⟩ := Parser.bind_ok hrun
  obtain ⟨hpair, rfl⟩ := Parser.pure_ok hpure
  cases hpair
  have hwidthEq : s.width = width := by rw [hs]
  have hsteady : Parser.Steady Grammar.width := .bind (.word _) fun _ => .need _ _
  refine ⟨ts, eof, htokens, ?_⟩
  have hheader : ∃ header, ts = header ++ m.rest ∧ WidthTokens s.width header := by
    rw [hwidthEq]
    rcases Parser.optional_ok hsteady hwidth with ⟨t, rfl, ht⟩ | ⟨rfl, hrest, -⟩
    · exact widthTokens_of_width ht hbits hmachine
    · cases hbits
      cases hmachine
      exact ⟨[], by rw [hrest]; rfl, rfl⟩
  obtain ⟨header, hts, hheader⟩ := hheader
  have husuffix : Unsigned m.rest := hu.of_suffix (hts ▸ List.suffix_append header m.rest)
  refine ⟨header, m.rest, hts, hheader, ?_⟩
  have hsequence := Grammar.items_reads hP hstmt m _ m' husuffix hitems
  rwa [hend] at hsequence

/-- **Nothing is lost.**  The tokens of an accepted text are those that ask for the width of the
script, if any do, and behind them the tokens that spell its items, in order and each once. -/
theorem parse_spelled {source : Text} {s : Script} (h : parse source = .ok s) :
    ∃ header body eof, tokens source = .ok (header ++ body, eof) ∧ WidthTokens s.width header ∧
      List.Forall₂ Word.Fits (s.items.flatMap Item.words) body := by
  obtain ⟨ts, eof, htokens, header, rest, rfl, hheader, hitems⟩ :=
    spelledBy_of_parse (fun _ _ _ h => h) Grammar.stmt_reads h
  obtain ⟨body, hbody, hwords⟩ := hitems.spelled fun i ts rest h =>
    Item.SpelledBy.spelled (fun _ _ _ h => h) h
  rw [List.append_nil] at hbody
  subst hbody
  exact ⟨header, rest, eof, htokens, hheader, hwords⟩

/-- A comment, a width, a keyword between quotes, a negative number and a call in a function. -/
def spelledSource : Text :=
  "bits 32 // wide\n func f(a int32) \x7b \"print\" -7 let r = call f(a, 2) as int32 \x7d exit"

theorem parse_spelled_source : ∃ s header body eof, parse spelledSource = .ok s ∧
    tokens spelledSource = .ok (header ++ body, eof) ∧ header.length = 2 ∧ body.length = 24 ∧
    WidthTokens s.width header ∧ List.Forall₂ Word.Fits (s.items.flatMap Item.words) body := by
  have hrun : ((parse spelledSource).toOption.any fun s =>
      s.width = some .bits32 ∧ (s.items.flatMap Item.words).length = 24) = true := by decide +kernel
  cases hparse : parse spelledSource with
  | error x =>
    rw [hparse] at hrun
    cases hrun
  | ok s =>
    rw [hparse] at hrun
    obtain ⟨hwidth, hcount⟩ := of_decide_eq_true hrun
    obtain ⟨header, body, eof, htokens, hheader, hbody⟩ := parse_spelled hparse
    refine ⟨s, header, body, eof, rfl, htokens, ?_, hbody.length_eq.symm.trans hcount, hheader, hbody⟩
    rw [hwidth] at hheader
    match header, hheader with
    | [_, _], _ => rfl

end Assembly.Script
