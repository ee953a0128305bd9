import Assembly.Proofs.Text.Rune
import Assembly.Script.Lexer

/-!
# Tokens as they are cut

Every token takes its characters from the front of what is left, so all of them come from the
text; the characters of a text are code points with their bytes, and so the text of a number
begins with a digit or a point.
-/

namespace Assembly.Script

/-! ## What is left -/

theorem readRadix_suffix (gs : List Glyph) : (readRadix gs).2 <:+ gs := by
  match gs with
  | [] => exact List.suffix_refl _
  | [g] => exact List.suffix_refl _
  | g :: h :: r =>
    have htwo : r <:+ g :: h :: r := (List.suffix_cons h r).trans (List.suffix_cons g _)
    simp only [readRadix]
    split
    · exact List.suffix_refl _
    · split
      · exact htwo
      · split
        · exact htwo
        · split
          · exact htwo
          · exact List.suffix_refl _

theorem readDigits_suffix (isDigit : Glyph → Bool) (gs : List Glyph) :
    (readDigits isDigit gs).2 <:+ gs := List.dropWhile_suffix _

theorem readFraction_suffix (radix : Radix) (gs : List Glyph) :
    (readFraction radix gs).2 <:+ gs := by
  cases gs with
  | nil => exact List.suffix_refl _
  | cons g r =>
    simp only [readFraction]
    split
    · exact (readDigits_suffix _ r).trans (List.suffix_cons g r)
    · exact List.suffix_refl _

theorem readExponent_suffix (gs : List Glyph) : (readExponent gs).2 <:+ gs := by
  cases gs with
  | nil => exact List.suffix_refl _
  | cons e r =>
    simp only [readExponent]
    split
    · refine (readDigits_suffix _ _).trans ?_
      cases r with
      | nil => exact List.nil_suffix
      | cons s q =>
        dsimp only
        split
        · exact (List.suffix_cons s q).trans (List.suffix_cons e _)
        · exact List.suffix_cons e _
    · exact List.suffix_refl _

theorem readNumber_suffix (eof : Pos) (gs : List Glyph) : (readNumber eof gs).rest <:+ gs :=
  (readExponent_suffix _).trans ((readFraction_suffix _ _).trans
    ((readDigits_suffix _ _).trans (readRadix_suffix gs)))

theorem read_suffix (eof : Pos) (g : Glyph) (r : List Glyph) :
    (Lexeme.read eof g r).rest <:+ g :: r := by
  have htail : r <:+ g :: r := List.suffix_cons g r
  rw [Lexeme.read]
  split
  · exact (List.dropWhile_suffix _).trans htail
  · split
    · exact readNumber_suffix eof _
    · split
      · exact (skipQuoted_suffix 34 eof .body r).trans htail
      · split
        · exact (skipQuoted_suffix 39 eof .body r).trans htail
        · split
          · exact (skipRaw_suffix eof r).trans htail
          · split
            · exact readNumber_suffix eof _
            · exact htail

theorem read_number {eof : Pos} {g : Glyph} {r : List Glyph}
    (h : (Lexeme.read eof g r).kind ∈ [TokenKind.int, .float]) : g.isDecimal ∨ g.code = 46 := by
  rw [Lexeme.read] at h
  split at h
  · simp at h
  · split at h
    next hdecimal => exact .inl hdecimal
    next =>
      split at h
      · simp [Lexeme.ofSkip] at h
      · split at h
        · simp [Lexeme.ofSkip] at h
        · split at h
          · simp [Lexeme.ofSkip] at h
          · split at h
            next hpoint => exact .inr hpoint.1
            next => simp at h

/-! ## Tokens -/

theorem laterFault_eq_none {early late : Option Fault} (h : laterFault early late = none) :
    early = none ∧ late = none := by
  rw [laterFault.eq_def] at h
  split at h
  · split at h <;> cases h
  · cases h
  · exact ⟨rfl, h⟩

/-- A token that is read: where it stands, its lexeme, its value, and no fault. -/
theorem readToken_ok {eof : Pos} {seen : Nat} {gs rest : List Glyph} {t : Token}
    (h : readToken eof seen gs = .ok (some t, rest)) :
    ∃ g r, g :: r <:+ gs ∧ rest = (Lexeme.read eof g r).rest ∧
      tokenOf (Lexeme.read eof g r).kind g.pos
        (Glyph.text ((g :: r).take ((g :: r).length - rest.length))) = .ok t ∧
      (Lexeme.read eof g r).fault = none ∧
      lastReadFault ((gs.take (gs.length - rest.length + 1)).drop seen) = none := by
  have hgap := skipGap_suffix eof .outside gs
  rw [readToken] at h
  cases hfront : (skipGap eof .outside gs).1 with
  | nil =>
    simp only [hfront] at h
    split at h <;> cases h
  | cons g r =>
    simp only [hfront] at h
    rw [hfront] at hgap
    split at h
    next => cases h
    next hlater =>
      obtain ⟨hread, hlexeme⟩ := laterFault_eq_none hlater
      cases htoken : tokenOf (Lexeme.read eof g r).kind g.pos
          (Glyph.text ((g :: r).take ((g :: r).length - (Lexeme.read eof g r).rest.length))) with
      | error e =>
        rw [htoken] at h
        cases h
      | ok t' =>
        rw [htoken] at h
        cases h
        exact ⟨g, r, hgap, rfl, htoken, (Option.or_eq_none_iff.mp hlexeme).1, hread⟩

/-- Kinds of tokens whose value is the text they are read from. -/
def TokenKind.isPlain : TokenKind → Bool
  | name => true
  | int => true
  | float => true
  | _ => false

theorem tokenOf_plain {kind : TokenKind} {pos : Pos} {text : Text} {t : Token}
    (h : tokenOf kind pos text = .ok t) (ht : t.kind.isPlain) : kind = t.kind ∧ t.value = text := by
  cases kind with
  | string =>
    simp only [tokenOf] at h
    split at h <;> cases h
    cases ht
  | char =>
    simp only [tokenOf] at h
    split at h <;> cases h
    split at ht <;> cases ht
  | raw =>
    cases h
    cases ht
  | _ =>
    cases h
    exact ⟨rfl, rfl⟩

/-- The glyphs are characters of texts. -/
def Genuine (gs : List Glyph) : Prop := ∀ g ∈ gs, ∃ t, g.rune ∈ Text.runes t

theorem map_rune_locate (p : Pos) (cs : List Rune) : (Glyph.locate p cs).map (·.rune) = cs := by
  induction cs generalizing p with
  | nil => rfl
  | cons c cs ih => exact congrArg (c :: ·) (ih (p.after c))

theorem genuine_locate (t : Text) (p : Pos) : Genuine (Glyph.locate p (Text.runes t)) := by
  intro g hg
  refine ⟨t, ?_⟩
  rw [← map_rune_locate p (Text.runes t)]
  exact List.mem_map_of_mem hg

/-- No number token begins with a minus sign. -/
def Unsigned (ts : List Token) : Prop :=
  ∀ t ∈ ts, t.kind ∈ [TokenKind.int, .float] → t.value.head? ≠ some 45

theorem bytes_of_code_lt {t : Text} {c : Rune} (hc : c ∈ Text.runes t) (h : c.code < 0x80) :
    c.bytes = [c.code.toUInt8] := by
  rcases Text.mem_runes hc with ⟨-, heq⟩ | ⟨b, rfl⟩
  · rw [congrArg Rune.bytes heq, Rune.ofCode, Rune.encode, if_pos h]
  · simp [Rune.malformed, Rune.replacement] at h

theorem readTokens_succ_ok {eof : Pos} {seen fuel : Nat} {gs : List Glyph} {ts : List Token}
    (h : readTokens eof seen gs (fuel + 1) = .ok ts) :
    ts = [] ∨ ∃ t rest ts', readToken eof seen gs = .ok (some t, rest) ∧
      readTokens eof 1 rest fuel = .ok ts' ∧ ts = t :: ts' := by
  rw [readTokens] at h
  cases htoken : readToken eof seen gs with
  | error e =>
    rw [htoken] at h
    cases h
  | ok found =>
    rw [htoken] at h
    obtain ⟨_ | t, rest⟩ := found
    · cases h
      exact .inl rfl
    · cases hrest : readTokens eof 1 rest fuel with
      | error e =>
        have herror : (do pure (t :: (← readTokens eof 1 rest fuel)) : Except LexError _) = .ok ts := h
        rw [hrest] at herror
        cases herror
      | ok ts' =>
        have hok : (do pure (t :: (← readTokens eof 1 rest fuel)) : Except LexError _) = .ok ts := h
        rw [hrest] at hok
        cases hok
        exact .inr ⟨t, rest, ts', rfl, hrest, rfl⟩

theorem head?_number {g : Glyph} {r : List Glyph} (hg : ∃ t, g.rune ∈ Text.runes t)
    (h : g.isDecimal ∨ g.code = 46) (n : Nat) :
    (Glyph.text ((g :: r).take n)).head? ≠ some 45 := by
  have hcode : 46 ≤ g.code ∧ g.code ≤ 57 := by
    rcases h with h | h
    · simp only [Glyph.isDecimal, Bool.and_eq_true, decide_eq_true_eq] at h
      omega
    · omega
  obtain ⟨t, hmem⟩ := hg
  have hbytes : g.rune.bytes = [g.code.toUInt8] := bytes_of_code_lt hmem (by
    have : g.rune.code = g.code := rfl
    omega)
  cases n with
  | zero => simp [Glyph.text]
  | succ n =>
    have hne : g.code.toUInt8 ≠ 45 := by
      intro heq
      have hnat := congrArg UInt8.toNat heq
      rw [Rune.toNat_toUInt8] at hnat
      have : (45 : UInt8).toNat = 45 := rfl
      omega
    simpa [Glyph.text, hbytes] using hne

theorem unsigned_readTokens {eof : Pos} {fuel seen : Nat} {gs : List Glyph} {ts : List Token}
    (hgs : Genuine gs) (h : readTokens eof seen gs fuel = .ok ts) : Unsigned ts := by
  induction fuel generalizing seen gs ts with
  | zero =>
    cases h
    exact List.forall_mem_nil _
  | succ fuel ih =>
    rcases readTokens_succ_ok h with rfl | ⟨t, rest, ts', htoken, hrest, rfl⟩
    · exact List.forall_mem_nil _
    obtain ⟨g, r, hsuffix, rfl, hvalue, -, -⟩ := readToken_ok htoken
    have hread := read_suffix eof g r
    refine List.forall_mem_cons.mpr ⟨fun hkind => ?_, ?_⟩
    · have hplain : t.kind.isPlain := by
        simp only [List.mem_cons, List.not_mem_nil, or_false] at hkind
        rcases hkind with hkind | hkind <;> rw [hkind] <;> rfl
      obtain ⟨hsame, htext⟩ := tokenOf_plain hvalue hplain
      rw [htext]
      exact head?_number (hgs g (hsuffix.subset List.mem_cons_self))
        (read_number (hsame ▸ hkind)) _
    · exact ih (fun x hx => hgs x (hsuffix.subset (hread.subset hx))) hrest

/-- The glyphs that the tokens of a text are cut from. -/
def sourceGlyphs (source : Text) : List Glyph :=
  skipMark (Glyph.locate .start (Text.runes source))

theorem tokens_eq_ok_iff {source : Text} {ts : List Token} {eof : Token} :
    tokens source = .ok (ts, eof) ↔
      readTokens (Glyph.locateEnd .start (Text.runes source)) 0 (sourceGlyphs source)
        ((sourceGlyphs source).length + 1) = .ok ts ∧
      eof = ⟨.eof, [], if source.isEmpty then .nowhere
        else Glyph.locateEnd .start (Text.runes source)⟩ := by
  show (readTokens _ 0 (sourceGlyphs source) ((sourceGlyphs source).length + 1) >>= _) = _ ↔ _
  cases readTokens (Glyph.locateEnd .start (Text.runes source)) 0 (sourceGlyphs source)
      ((sourceGlyphs source).length + 1) with
  | error e =>
    constructor
    · intro h
      cases h
    · intro h
      cases h.1
  | ok ts' =>
    constructor
    · intro h
      cases h
      exact ⟨rfl, rfl⟩
    · rintro ⟨hts, rfl⟩
      cases hts
      rfl

theorem skipMark_suffix (gs : List Glyph) : skipMark gs <:+ gs := by
  cases gs with
  | nil => exact List.suffix_refl _
  | cons g r =>
    rw [skipMark]
    split
    · exact List.suffix_cons g r
    · exact List.suffix_refl _

/-- The numbers of a text are told apart from the minus signs in front of them. -/
theorem unsigned_tokens {source : Text} {ts : List Token} {eof : Token}
    (h : tokens source = .ok (ts, eof)) : Unsigned ts :=
  unsigned_readTokens (fun g hg => genuine_locate source .start g ((skipMark_suffix _).subset hg))
    (tokens_eq_ok_iff.mp h).1

end Assembly.Script
