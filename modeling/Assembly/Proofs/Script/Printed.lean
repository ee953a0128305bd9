import Assembly.Proofs.Script.Written
import Assembly.Script.Printer

/-!
# Tokens of printed scripts

The text of a script is cut into tokens for just the words of the script, if its names and
numbers are tokens themselves.
-/

namespace Assembly.Script

open Text (runes)

/-! ## What can be written -/

def keywords : List Text :=
  ["bits", "func", "const", "global", "local", "let", "param", "load", "as", "alloc", "call", "cast",
    "to", "print", "asm", "free", "return", "exit"]

/-- A name that is no keyword. -/
def isIdentifier (t : Text) : Bool := isTokenOf [.name] t && !keywords.contains t

/-- One number token, possibly behind a minus sign. -/
def isNumeral : Text → Bool
  | 45 :: digits => isTokenOf [.int, .float] digits
  | digits => isTokenOf [.int, .float] digits

theorem words_of_isNumeral {v : Text} (hv : isNumeral v) :
    (∃ digits, v = 45 :: digits ∧ numeralWords v = [.mark "-", .number digits] ∧
      isTokenOf [.int, .float] digits) ∨
    (∀ digits, v ≠ 45 :: digits) ∧ numeralWords v = [.number v] ∧ isTokenOf [.int, .float] v := by
  by_cases hminus : ∃ digits, v = 45 :: digits
  · obtain ⟨digits, rfl⟩ := hminus
    exact .inl ⟨digits, rfl, rfl, hv⟩
  · rw [not_exists] at hminus
    rw [isNumeral.eq_2 v hminus] at hv
    exact .inr ⟨hminus, numeralWords.eq_2 v hminus, hv⟩

def Term.isWritable (x : Term) : Bool :=
  match x.form with
  | .string _ => true
  | .number t => isNumeral t
  | .name t => isIdentifier t

def CallForm.isWritable (c : CallForm) : Bool :=
  isIdentifier c.name && c.args.all Term.isWritable && c.type.all isIdentifier

def Expr.isWritable (x : Expr) : Bool :=
  match x.form with
  | .param name => isIdentifier name
  | .load value type => value.isWritable && type.all isIdentifier
  | .alloc type => isIdentifier type
  | .call c => c.isWritable
  | .cast value type => value.isWritable && isIdentifier type
  | .term value => value.isWritable

def Stmt.isWritable (s : Stmt) : Bool :=
  match s.form with
  | .const name type value => isIdentifier name && type.all isIdentifier && value.isWritable
  | .globalVar name type => isIdentifier name && isIdentifier type
  | .localVar name type => isIdentifier name && isIdentifier type
  | .bind name value => isIdentifier name && value.isWritable
  | .call c => c.isWritable
  | .print value => value.isWritable
  | .asm _ => true
  | .free name => isIdentifier name
  | .ret value => value.isWritable
  | .exit code => code.all Term.isWritable

def Formal.isWritable (p : Formal) : Bool := isIdentifier p.name && isIdentifier p.type

def Func.isWritable (f : Func) : Bool :=
  isIdentifier f.name && f.params.all Formal.isWritable && f.body.all Stmt.isWritable

def Item.isWritable : Item → Bool
  | func f => f.isWritable
  | stmt s => s.isWritable && (topFault? (.stmt s)).isNone

/-- The names of the script are identifiers, its numbers are number tokens, and no local or
return stands outside of functions. -/
def isWritable (s : Script) : Bool := s.items.all Item.isWritable

/-! ## Words, one after another -/

theorem stops_cons {b : UInt8} (hb : [(10 : UInt8), 32, 40, 41, 44].contains b) (t : Text) :
    Stops (b :: t) := by
  intro x hx
  cases hx
  exact hb

namespace Lexes

variable {rest : Text} {ws : List Word}

theorem keyword {w : Text} (hw : w ∈ keywords) (hrest : Stops rest) (h : Lexes rest ws) :
    Lexes (w ++ rest) (.keyword w :: ws) := by
  have htokens : ∀ w ∈ keywords, isTokenOf [.name] w := by decide
  exact .plain (w := .keyword w) (by simp [Word.kinds, TokenKind.isPlain]) (htokens w hw) hrest h

theorem space (h : Lexes rest ws) : Lexes (32 :: rest) ws := .blank (by decide) h

theorem opening (w : Text) (hw : w ∈ keywords) (h : Lexes rest ws) :
    Lexes (w ++ 32 :: rest) (.keyword w :: ws) := .keyword hw (stops_cons (by decide) _) h.space

theorem name {v : Text} (hv : isIdentifier v) (hrest : Stops rest) (h : Lexes rest ws) :
    Lexes (v ++ rest) (.name v :: ws) := by
  rw [isIdentifier, Bool.and_eq_true] at hv
  exact .plain (w := .name v) (by simp [Word.kinds, TokenKind.isPlain]) hv.1 hrest h

theorem number {v : Text} (hv : isTokenOf [.int, .float] v) (hrest : Stops rest)
    (h : Lexes rest ws) : Lexes (v ++ rest) (.number v :: ws) :=
  .plain (w := .number v) (by simp [Word.kinds, TokenKind.isPlain]) hv hrest h

theorem numeral {v : Text} (hv : isNumeral v) (hrest : Stops rest) (h : Lexes rest ws) :
    Lexes (v ++ rest) (numeralWords v ++ ws) := by
  rcases words_of_isNumeral hv with ⟨digits, rfl, hwords, hdigits⟩ | ⟨-, hwords, hdigits⟩
  · rw [hwords]
    exact .mark (by decide) (.number hdigits hrest h)
  · rw [hwords]
    exact .number hdigits hrest h

theorem term {x : Term} (hx : x.isWritable) (hrest : Stops rest) (h : Lexes rest ws) :
    Lexes (x.text ++ rest) (x.words ++ ws) := by
  obtain ⟨pos, form⟩ := x
  cases form with
  | string t => exact .string t h
  | number t => exact .numeral hx hrest h
  | name t => exact .name hx hrest h

theorem asType {type : Option Text} (htype : type.all isIdentifier) (hrest : Stops rest)
    (h : Lexes rest ws) : Lexes (asText type ++ rest) (asWords type ++ ws) := by
  cases type with
  | none => exact h
  | some t =>
    show Lexes (32 :: ("as" ++ 32 :: (t ++ rest))) (.keyword "as" :: .name t :: ws)
    exact .space (.opening "as" (by decide) (.name htype hrest h))

end Lexes

theorem stops_asText {rest : Text} (h : Stops rest) (type : Option Text) :
    Stops (asText type ++ rest) := by
  cases type with
  | none => exact h
  | some t => exact stops_cons (b := 32) (by decide) _

theorem listWords_cons_cons (us vs : List Word) (rest : List (List Word)) :
    listWords (us :: vs :: rest) = us ++ Word.mark "," :: listWords (vs :: rest) := by
  simp [listWords]

theorem Lexes.join {α : Type} {text : α → Text} {words : α → List Word} {xs : List α}
    (hx : ∀ x ∈ xs, ∀ rest ws, Stops rest → Lexes rest ws → Lexes (text x ++ rest) (words x ++ ws))
    {rest : Text} {ws : List Word} (hrest : Stops rest) (h : Lexes rest ws) :
    Lexes (Text.join ", " (xs.map text) ++ rest) (listWords (xs.map words) ++ ws) := by
  induction xs with
  | nil => exact h
  | cons x xs ih =>
    have hfirst := hx x List.mem_cons_self
    have hothers := ih fun y hy => hx y (List.mem_cons_of_mem x hy)
    cases xs with
    | nil =>
      simp only [List.map_cons, List.map_nil, Text.join, listWords, List.flatMap_nil, List.append_nil]
      exact hfirst rest ws hrest h
    | cons y ys =>
      simp only [List.map_cons, Text.join, listWords_cons_cons, List.append_assoc,
        List.cons_append] at hothers ⊢
      refine hfirst _ _ (stops_cons (b := 44) (by decide) _) ?_
      show Lexes (44 :: 32 :: _) _
      exact .mark (by decide) (.space hothers)

/-! ## Parts of scripts -/

namespace Lexes

variable {rest : Text} {ws : List Word}

theorem call {c : CallForm} (hc : c.isWritable) (hrest : Stops rest) (h : Lexes rest ws) :
    Lexes (c.text ++ rest) (c.words ++ ws) := by
  obtain ⟨name, args, type⟩ := c
  simp only [CallForm.isWritable, Bool.and_eq_true, List.all_eq_true] at hc
  obtain ⟨⟨hname, hargs⟩, htype⟩ := hc
  have hlast : Lexes (41 :: (asText type ++ rest)) (Word.mark ")" :: (asWords type ++ ws)) :=
    .mark (by decide) (.asType htype hrest h)
  have hlist := Lexes.join (fun x hx rest ws hr h => Lexes.term (hargs x hx) hr h)
    (stops_cons (by decide) _) hlast
  have hopen := Lexes.opening "call" (by decide) (.name hname (stops_cons (b := 40) (by decide) _)
    (.mark (by decide) hlist))
  simp only [CallForm.text, CallForm.words, List.append_assoc, List.cons_append, List.nil_append]
  exact hopen

theorem expr {x : Expr} (hx : x.isWritable) (hrest : Stops rest) (h : Lexes rest ws) :
    Lexes (x.text ++ rest) (x.words ++ ws) := by
  obtain ⟨pos, form⟩ := x
  cases form with
  | param name => exact .opening "param" (by decide) (.name hx hrest h)
  | load value type =>
    simp only [Expr.isWritable, Bool.and_eq_true] at hx
    have hopen := Lexes.opening "load" (by decide)
      (.term hx.1 (stops_asText hrest type) (.asType hx.2 hrest h))
    simp only [Expr.text, ExprForm.text, Expr.words, ExprForm.words, List.append_assoc]
    exact hopen
  | alloc type => exact .opening "alloc" (by decide) (.name hx hrest h)
  | call c => exact .call hx hrest h
  | cast value type =>
    simp only [Expr.isWritable, Bool.and_eq_true] at hx
    have hopen := Lexes.opening "cast" (by decide)
      (.term hx.1 (stops_cons (b := 32) (by decide) _)
        (.space (.opening "to" (by decide) (.name hx.2 hrest h))))
    simp only [Expr.text, ExprForm.text, Expr.words, ExprForm.words, List.append_assoc]
    exact hopen
  | term value => exact .term hx hrest h

theorem stmt {s : Stmt} (hs : s.isWritable) (hrest : Stops rest) (h : Lexes rest ws) :
    Lexes (s.text ++ rest) (s.words ++ ws) := by
  obtain ⟨pos, form⟩ := s
  cases form with
  | const name type value =>
    simp only [Stmt.isWritable, Bool.and_eq_true] at hs
    obtain ⟨⟨hname, htype⟩, hvalue⟩ := hs
    have hequals : Lexes (32 :: 61 :: 32 :: (value.text ++ rest)) (Word.mark "=" :: (value.words ++ ws)) :=
      .space (.mark (by decide) (.space (.term hvalue hrest h)))
    cases type with
    | none =>
      have hopen := Lexes.opening "const" (by decide)
        (.name hname (stops_cons (by decide) _) hequals)
      simp only [Stmt.text, StmtForm.text, Stmt.words, StmtForm.words, List.append_assoc]
      exact hopen
    | some t =>
      have hopen := Lexes.opening "const" (by decide)
        (.name hname (stops_cons (b := 32) (by decide) _)
          (.space (.name htype (stops_cons (by decide) _) hequals)))
      simp only [Stmt.text, StmtForm.text, Stmt.words, StmtForm.words, List.append_assoc]
      exact hopen
  | globalVar name type =>
    simp only [Stmt.isWritable, Bool.and_eq_true] at hs
    have hopen := Lexes.opening "global" (by decide) (.name hs.1 (stops_cons (b := 32) (by decide) _)
      (.space (.name hs.2 hrest h)))
    simp only [Stmt.text, StmtForm.text, List.append_assoc]
    exact hopen
  | localVar name type =>
    simp only [Stmt.isWritable, Bool.and_eq_true] at hs
    have hopen := Lexes.opening "local" (by decide) (.name hs.1 (stops_cons (b := 32) (by decide) _)
      (.space (.name hs.2 hrest h)))
    simp only [Stmt.text, StmtForm.text, List.append_assoc]
    exact hopen
  | bind name value =>
    simp only [Stmt.isWritable, Bool.and_eq_true] at hs
    have hopen := Lexes.opening "let" (by decide) (.name hs.1 (stops_cons (b := 32) (by decide) _)
      (.space (.mark (b := 61) (by decide) (.space (.expr hs.2 hrest h)))))
    simp only [Stmt.text, StmtForm.text, Stmt.words, StmtForm.words, List.append_assoc]
    exact hopen
  | call c => exact .call hs hrest h
  | print value => exact .opening "print" (by decide) (.term hs hrest h)
  | asm code => exact .opening "asm" (by decide) (.string code h)
  | free name => exact .opening "free" (by decide) (.name hs hrest h)
  | ret value => exact .opening "return" (by decide) (.term hs hrest h)
  | exit code =>
    cases code with
    | none => exact .keyword (w := "exit") (by decide) hrest h
    | some value =>
      have hopen := Lexes.opening "exit" (by decide) (.term hs hrest h)
      simp only [Stmt.words, StmtForm.words, Option.toList_some, List.flatMap_cons, List.flatMap_nil,
        List.append_nil]
      exact hopen

theorem formal {p : Formal} (hp : p.isWritable) (hrest : Stops rest) (h : Lexes rest ws) :
    Lexes (p.text ++ rest) (p.words ++ ws) := by
  simp only [Formal.isWritable, Bool.and_eq_true] at hp
  have hopen := Lexes.name hp.1 (stops_cons (b := 32) (by decide) _) (.space (.name hp.2 hrest h))
  simp only [Formal.text, List.append_assoc]
  exact hopen

theorem body {ss : List Stmt} (hs : ∀ s ∈ ss, s.isWritable) (h : Lexes rest ws) :
    Lexes (ss.flatMap indented ++ rest) (ss.flatMap (·.words) ++ ws) := by
  induction ss with
  | nil => exact h
  | cons s ss ih =>
    have hothers := ih fun x hx => hs x (List.mem_cons_of_mem s hx)
    have hline := Lexes.stmt (hs s List.mem_cons_self) (stops_cons (b := 10) (by decide) _)
      (.blank (by decide) hothers)
    simp only [List.flatMap_cons, indented, List.append_assoc]
    exact .space (.space (.space (.space hline)))

theorem func {f : Func} (hf : f.isWritable) (h : Lexes rest ws) :
    Lexes (f.text ++ rest) (f.words ++ ws) := by
  simp only [Func.isWritable, Bool.and_eq_true, List.all_eq_true] at hf
  obtain ⟨⟨hname, hparams⟩, hbody⟩ := hf
  have hend : Lexes (125 :: rest) (Word.mark "\x7d" :: ws) := .mark (by decide) h
  have hbegin : Lexes (41 :: 32 :: 123 :: 10 :: (f.body.flatMap indented ++ 125 :: rest))
      (Word.mark ")" :: Word.mark "\x7b" :: (f.body.flatMap (·.words) ++ Word.mark "\x7d" :: ws)) :=
    .mark (by decide) (.space (.mark (by decide) (.blank (by decide) (.body hbody hend))))
  have hlist := Lexes.join (fun x hx rest ws hr h => Lexes.formal (hparams x hx) hr h)
    (stops_cons (by decide) _) hbegin
  have hopen := Lexes.opening "func" (by decide) (.name hname (stops_cons (b := 40) (by decide) _)
    (.mark (by decide) hlist))
  simp only [Func.text, Func.words, Func.headWords, List.append_assoc, List.cons_append, List.nil_append]
  exact hopen

theorem items {is : List Item} (hi : ∀ i ∈ is, i.isWritable) (h : Lexes rest ws) :
    Lexes (is.flatMap Item.lines ++ rest) (is.flatMap Item.words ++ ws) := by
  induction is with
  | nil => exact h
  | cons i is ih =>
    have hothers := ih fun x hx => hi x (List.mem_cons_of_mem i hx)
    have hfirst := hi i List.mem_cons_self
    have hnewline : Lexes (10 :: (is.flatMap Item.lines ++ rest)) (is.flatMap Item.words ++ ws) :=
      .blank (by decide) hothers
    simp only [List.flatMap_cons, Item.lines, List.append_assoc]
    cases i with
    | func f => exact .func hfirst hnewline
    | stmt s =>
      simp only [Item.isWritable, Bool.and_eq_true] at hfirst
      exact .stmt hfirst.1 (stops_cons (by decide) _) hnewline

end Lexes

/-! ## Whole scripts -/

def widthWords : Option Target → List Word
  | some t => [.keyword "bits", .int (Text.ofNat t.bits)]
  | none => []

theorem lexes_text {s : Script} (hs : s.isWritable) :
    Lexes s.text (widthWords s.width ++ s.items.flatMap Item.words) := by
  have hitems := Lexes.items (List.all_eq_true.mp hs) Lexes.nil
  simp only [List.append_nil] at hitems
  rw [text]
  cases s.width with
  | none => exact hitems
  | some t =>
    have hint : isTokenOf [.int] (Text.ofNat t.bits) := by cases t <;> decide
    have hopen := Lexes.opening "bits" (by decide) (.plain (w := .int (Text.ofNat t.bits))
      (by simp [Word.kinds, TokenKind.isPlain]) hint (stops_cons (b := 10) (by decide) _)
      (.blank (by decide) hitems))
    simp only [List.append_assoc]
    exact hopen

theorem sourceGlyphs_eq {t : Text} (h : ∀ b ∈ t.head?, b.toNat < 0x80) :
    sourceGlyphs t = Glyph.locate .start (runes t) := by
  cases t with
  | nil => rfl
  | cons b t =>
    have hb : b.toNat < 0x80 := h b rfl
    have hrunes : runes (b :: t) = Rune.ascii b :: runes t :=
      Text.runes_ascii (t := [b]) (by simpa using hb) t
    have hcode : Glyph.code ⟨Rune.ascii b, .start⟩ ≠ 0xFEFF := Nat.ne_of_lt (Nat.lt_trans hb (by decide))
    rw [sourceGlyphs, hrunes]
    exact if_neg fun hmark => hcode hmark.1

theorem Lexes.tokens {t : Text} {ws : List Word} (h : Lexes t ws)
    (hhead : ∀ b ∈ t.head?, b.toNat < 0x80) :
    ∃ ts eof, tokens t = .ok (ts, eof) ∧ List.Forall₂ Word.Shown ws ts := by
  have hsource := sourceGlyphs_eq hhead
  obtain ⟨ts, hts, hshown⟩ := h.2 (Glyph.locateEnd .start (runes t)) 0 (sourceGlyphs t)
    ((sourceGlyphs t).length + 1) (by rw [hsource, map_rune_locate]) (Nat.lt_succ_self _)
  exact ⟨ts, _, tokens_eq_ok_iff.mpr ⟨hts, rfl⟩, hshown⟩

theorem Item.head?_lines (i : Item) (t : Text) : ∀ b ∈ (i.lines ++ t).head?, b.toNat < 0x80 := by
  cases i with
  | func f =>
    intro b hb
    cases hb
    decide
  | stmt s =>
    obtain ⟨pos, form⟩ := s
    intro b hb
    cases form with
    | exit code => cases code <;> cases hb <;> decide
    | _ =>
      cases hb
      decide

theorem tokens_text {s : Script} (hs : s.isWritable) :
    ∃ ts eof, tokens s.text = .ok (ts, eof) ∧
      List.Forall₂ Word.Shown (widthWords s.width ++ s.items.flatMap Item.words) ts := by
  refine (lexes_text hs).tokens ?_
  rw [text]
  cases s.width with
  | some t =>
    intro b hb
    cases hb
    decide
  | none =>
    cases s.items with
    | nil =>
      intro b hb
      cases hb
    | cons i is => exact i.head?_lines _

end Assembly.Script
