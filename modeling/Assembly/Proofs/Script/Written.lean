import Assembly.Proofs.Script.Numeral
import Assembly.Proofs.Script.Spelling
import Assembly.Proofs.Text.Quoted

/-!
# Tokens of written text

A text that is written token by token is cut into these tokens again, if names and numbers are
followed by a blank, a parenthesis or a comma.  `Lexes t ws` says that `t` is cut into tokens
for the words `ws`, wherever it stands at the end of a source; it is built from the back, one
token or blank at a time.
-/

namespace Assembly.Script

open Text (runes)

/-! ## Clean text -/

/-- Characters that a script may have. -/
def isClean (c : Rune) : Bool := c.valid && c.code != 0

def CleanText (t : Text) : Prop := ∀ c ∈ runes t, isClean c

theorem fault?_eq_none_iff {g : Glyph} : g.fault? = none ↔ isClean g.rune := by
  have hcode : g.rune.code = g.code := rfl
  rw [Glyph.fault?, isClean, hcode]
  cases hv : g.rune.valid with
  | false => simp
  | true => by_cases hzero : g.code = 0 <;> simp [hzero]

theorem lastReadFault_eq_none_iff {gs : List Glyph} :
    lastReadFault gs = none ↔ ∀ g ∈ gs, isClean g.rune := by
  simp only [lastReadFault, List.findSome?_eq_none_iff, List.mem_reverse, fault?_eq_none_iff]

theorem CleanText.runes_append {t : Text} (h : CleanText t) (u : Text) :
    runes (t ++ u) = runes t ++ runes u := by
  refine Text.runes_append (List.all_eq_true.mpr fun c hc => ?_) u
  have hclean := h c hc
  simp only [isClean, Bool.and_eq_true] at hclean
  exact hclean.1

theorem CleanText.append {t u : Text} (ht : CleanText t) (hu : CleanText u) : CleanText (t ++ u) := by
  intro c hc
  rw [ht.runes_append, List.mem_append] at hc
  exact hc.elim (ht c) (hu c)

theorem cleanText_ascii {t : Text} (h : ∀ b ∈ t, b.toNat < 0x80 ∧ b ≠ 0) : CleanText t := by
  intro c hc
  have hrunes := Text.runes_ascii (fun b hb => (h b hb).1) []
  rw [List.append_nil, Text.runes_nil, List.append_nil] at hrunes
  rw [hrunes] at hc
  obtain ⟨b, hb, rfl⟩ := List.mem_map.mp hc
  have hne : b.toNat ≠ 0 := fun hzero => (h b hb).2 (UInt8.toNat_inj.mp hzero)
  simpa [isClean, Rune.ascii] using hne

/-! ## One token -/

theorem readToken_of_read {eof : Pos} {seen : Nat} {gs r q : List Glyph} {g : Glyph}
    {kind : TokenKind} (hclean : ∀ x ∈ gs, isClean x.rune)
    (hgap : skipGap eof .outside gs = (g :: r, none))
    (hread : Lexeme.read eof g r = ⟨kind, q, none⟩) {t : Token}
    (htoken : tokenOf kind g.pos (Glyph.text ((g :: r).take ((g :: r).length - q.length))) = .ok t) :
    readToken eof seen gs = .ok (some t, q) := by
  have hfault : ∀ n, lastReadFault ((gs.take n).drop seen) = none := fun n =>
    lastReadFault_eq_none_iff.mpr fun x hx => hclean x (List.mem_of_mem_take (List.mem_of_mem_drop hx))
  simp only [readToken, hgap, hread, hfault, Option.or_none, laterFault, htoken]
  rfl

theorem readToken_end {eof : Pos} {seen : Nat} {gs : List Glyph}
    (hclean : ∀ x ∈ gs, isClean x.rune) (hgap : skipGap eof .outside gs = ([], none)) :
    readToken eof seen gs = .ok (none, []) := by
  have hfault : ∀ n, lastReadFault ((gs.take n).drop seen) = none := fun n =>
    lastReadFault_eq_none_iff.mpr fun x hx => hclean x (List.mem_of_mem_take (List.mem_of_mem_drop hx))
  simp only [readToken, hgap, hfault, Option.or_none, laterFault]

theorem readToken_blank {eof : Pos} {seen : Nat} {g : Glyph} {gs : List Glyph}
    (hclean : ∀ x ∈ g :: gs, isClean x.rune) (hg : g.isBlank) :
    readToken eof seen (g :: gs) = readToken eof seen gs := by
  have hgap : skipGap eof .outside (g :: gs) = skipGap eof .outside gs := by
    rw [skipGap.eq_def]
    simp [hg]
  have hall : ∀ n, lastReadFault (((g :: gs).take n).drop seen) = none := fun n =>
    lastReadFault_eq_none_iff.mpr fun x hx => hclean x (List.mem_of_mem_take (List.mem_of_mem_drop hx))
  have htail : ∀ n, lastReadFault ((gs.take n).drop seen) = none := fun n =>
    lastReadFault_eq_none_iff.mpr fun x hx =>
      hclean x (List.mem_cons_of_mem g (List.mem_of_mem_take (List.mem_of_mem_drop hx)))
  simp only [readToken, hgap, hall, htail]

/-! ## Text that is cut into tokens -/

/-- The token is the word as the text of a script has it. -/
def Word.Shown (w : Word) (t : Token) : Prop := t.value = w.value ∧ t.kind ∈ w.kinds

/-- Wherever the text stands at the end of a source, it is cut into tokens for the words. -/
def Lexes (t : Text) (ws : List Word) : Prop :=
  CleanText t ∧ ∀ eof seen gs fuel, gs.map (·.rune) = runes t → gs.length < fuel →
    ∃ ts, readTokens eof seen gs fuel = .ok ts ∧ List.Forall₂ Word.Shown ws ts

/-- With `rest` behind it, the text is read as one token of the kind. -/
def ReadsAs (d : Text) (kind : TokenKind) (rest : Text) : Prop :=
  ∀ eof gs q, gs.map (·.rune) = runes d → q.map (·.rune) = runes rest →
    ∃ g r, gs = g :: r ∧ skipGap eof .outside (g :: (r ++ q)) = (g :: (r ++ q), none) ∧
      Lexeme.read eof g (r ++ q) = ⟨kind, q, none⟩

theorem text_of_runes {gs : List Glyph} {t : Text} (h : gs.map (·.rune) = runes t) :
    Glyph.text gs = t := by
  rw [← Text.flatMap_bytes_runes t, ← h, List.flatMap_map]
  rfl

theorem clean_of_runes {gs : List Glyph} {t : Text} (ht : CleanText t)
    (h : gs.map (·.rune) = runes t) : ∀ x ∈ gs, isClean x.rune := by
  intro x hx
  refine ht x.rune ?_
  rw [← h]
  exact List.mem_map_of_mem hx

namespace Lexes

theorem nil : Lexes [] [] := by
  refine ⟨List.forall_mem_nil _, fun eof seen gs fuel hgs hfuel => ?_⟩
  obtain rfl : gs = [] := List.map_eq_nil_iff.mp hgs
  cases fuel with
  | zero => cases hfuel
  | succ fuel =>
    refine ⟨[], ?_, .nil⟩
    rw [readTokens, readToken_end (List.forall_mem_nil _) rfl]
    rfl

theorem blank {b : UInt8} (hb : b ∈ [(10 : UInt8), 32]) {t : Text} {ws : List Word}
    (h : Lexes t ws) : Lexes (b :: t) ws := by
  obtain ⟨hclean, hread⟩ := h
  have hascii : b.toNat < 0x80 ∧ b ≠ 0 := by
    simp only [List.mem_cons, List.not_mem_nil, or_false] at hb
    rcases hb with rfl | rfl <;> decide
  have hb' : CleanText [b] := cleanText_ascii (by simpa using hascii)
  have hcleanAll : CleanText (b :: t) := hb'.append hclean
  refine ⟨hcleanAll, fun eof seen gs fuel hgs hfuel => ?_⟩
  have hrunes : runes (b :: t) = Rune.ascii b :: runes t :=
    Text.runes_ascii (t := [b]) (by simpa using hascii.1) t
  rw [hrunes] at hgs
  obtain ⟨g, gs', rfl, hg, hgs'⟩ := List.map_eq_cons_iff.mp hgs
  have hblank : g.isBlank := by
    have hcode : g.code = b.toNat := congrArg Rune.code hg
    simp only [List.mem_cons, List.not_mem_nil, or_false] at hb
    rcases hb with rfl | rfl <;> simp [Glyph.isBlank, hcode]
  cases fuel with
  | zero => cases hfuel
  | succ fuel =>
    obtain ⟨ts, hts, hshown⟩ := hread eof seen gs' (fuel + 1) hgs' (Nat.lt_of_succ_lt hfuel)
    refine ⟨ts, ?_, hshown⟩
    have hcleanGs : ∀ x ∈ g :: gs', isClean x.rune :=
      clean_of_runes hcleanAll (hgs.trans hrunes.symm)
    rw [readTokens] at hts ⊢
    rwa [readToken_blank hcleanGs hblank]

theorem token {d rest : Text} {kind : TokenKind} {w : Word} {ws : List Word} (hd : CleanText d)
    (hread : ReadsAs d kind rest) (htoken : ∀ pos, ∃ t, tokenOf kind pos d = .ok t ∧ w.Shown t)
    (h : Lexes rest ws) : Lexes (d ++ rest) (w :: ws) := by
  obtain ⟨hclean, hrest⟩ := h
  have hcleanAll := hd.append hclean
  refine ⟨hcleanAll, fun eof seen gs fuel hgs hfuel => ?_⟩
  have hcleanGs := clean_of_runes hcleanAll hgs
  rw [hd.runes_append] at hgs
  obtain ⟨front, q, rfl, hfront, hq⟩ := List.map_eq_append_iff.mp hgs
  obtain ⟨g, r, rfl, hgap, hlexeme⟩ := hread eof front q hfront hq
  obtain ⟨t, ht, hshown⟩ := htoken g.pos
  have htext : Glyph.text ((g :: (r ++ q)).take ((g :: (r ++ q)).length - q.length)) = d := by
    rw [← List.cons_append, List.length_append, Nat.add_sub_cancel, List.take_left]
    exact text_of_runes hfront
  rw [← htext] at ht
  have hone : readToken eof seen (g :: r ++ q) = .ok (some t, q) :=
    readToken_of_read hcleanGs hgap hlexeme ht
  cases fuel with
  | zero => cases hfuel
  | succ fuel =>
    have hfuel' : q.length < fuel := by
      simp only [List.cons_append, List.length_cons, List.length_append] at hfuel
      omega
    obtain ⟨ts, hts, hforall⟩ := hrest eof 1 q fuel hq hfuel'
    refine ⟨t :: ts, ?_, .cons hshown hforall⟩
    rw [readTokens, hone]
    show (do pure (t :: (← readTokens eof 1 q fuel)) : Except LexError _) = _
    rw [hts]
    rfl

end Lexes

/-! ## Names and numbers -/

/-- The text is one token of one of the kinds and nothing else. -/
def isTokenOf (kinds : List TokenKind) (t : Text) : Bool :=
  match tokens t with
  | .ok ([x], _) => kinds.contains x.kind && x.value == t
  | _ => false

theorem eq_nil_of_text {gs : List Glyph} (hgs : Genuine gs) (h : Glyph.text gs = []) : gs = [] := by
  cases gs with
  | nil => rfl
  | cons g r =>
    obtain ⟨t, ht⟩ := hgs g List.mem_cons_self
    have hbytes : g.rune.bytes = [] := (List.append_eq_nil_iff.mp h).1
    have hlen := congrArg List.length hbytes
    rcases Text.mem_runes ht with ⟨-, heq⟩ | ⟨b, heq⟩
    · have hpos := Rune.length_encode_pos g.rune.code
      rw [heq] at hlen
      exact absurd hlen (Nat.ne_of_gt hpos)
    · rw [heq] at hlen
      cases hlen

theorem read_of_isTokenOf {kinds : List TokenKind} (hk : ∀ k ∈ kinds, k.isPlain) {d : Text}
    (h : isTokenOf kinds d) :
    CleanText d ∧ ∃ g r k eof, Glyph.locate .start (runes d) = g :: r ∧ k ∈ kinds ∧
      Lexeme.read eof g r = ⟨k, [], none⟩ := by
  rw [isTokenOf] at h
  split at h
  case h_2 => cases h
  case h_1 x eof htokens =>
    simp only [Bool.and_eq_true, List.contains_iff_mem, beq_iff_eq] at h
    obtain ⟨hkind, hvalue⟩ := h
    rcases readTokens_succ_ok (tokens_eq_ok_iff.mp htokens).1 with hnil | ⟨t, rest, ts, htoken, -, hts⟩
    · cases hnil
    cases hts
    obtain ⟨g, r, hsuffix, hrest, htokenOf, hfault, hlast⟩ := readToken_ok htoken
    obtain ⟨hsame, htext⟩ := tokenOf_plain htokenOf (hk _ hkind)
    have hgenuine := genuine_locate d .start
    have hrunes := map_rune_locate .start (runes d)
    have hskip : sourceGlyphs d <:+ Glyph.locate .start (runes d) := skipMark_suffix _
    obtain ⟨front, hfront⟩ := hsuffix.trans hskip
    -- The token has all the bytes, so nothing stands in front of it or behind it.
    have hbytes : Glyph.text front ++ (Glyph.text ((g :: r).take ((g :: r).length - rest.length)) ++
        Glyph.text ((g :: r).drop ((g :: r).length - rest.length))) = d := by
      rw [← text_of_runes hrunes, ← hfront]
      simp only [Glyph.text, ← List.flatMap_append, List.take_append_drop]
    rw [← htext, hvalue] at hbytes
    have hlen := congrArg List.length hbytes
    simp only [List.length_append] at hlen
    rw [← hfront] at hgenuine
    have hfrontNil : front = [] := eq_nil_of_text
      (fun x hx => hgenuine x (List.mem_append_left _ hx)) (List.length_eq_zero_iff.mp (by omega))
    have hdropNil : (g :: r).drop ((g :: r).length - rest.length) = [] := eq_nil_of_text
      (fun x hx => hgenuine x (List.mem_append_right _ (List.mem_of_mem_drop hx)))
      (List.length_eq_zero_iff.mp (by omega))
    have hrestNil : rest = [] := by
      have hle := List.drop_eq_nil_iff.mp hdropNil
      rw [List.length_cons] at hle
      exact List.length_eq_zero_iff.mp (by omega)
    subst hfrontNil hrestNil
    rw [List.nil_append] at hfront
    have hsource : sourceGlyphs d = g :: r :=
      (hsuffix.eq_of_length_le (hfront ▸ hskip.length_le)).symm
    refine ⟨fun c hc => ?_, g, r, x.kind, Glyph.locateEnd .start (runes d), hfront.symm, hkind, ?_⟩
    · rw [hsource, List.length_nil, Nat.sub_zero, List.take_of_length_le (Nat.le_succ _),
        List.drop_zero] at hlast
      rw [← hrunes, ← hfront] at hc
      obtain ⟨y, hy, rfl⟩ := List.mem_map.mp hc
      exact lastReadFault_eq_none_iff.mp hlast y hy
    · rw [← hsame]
      cases hlexeme : Lexeme.read (Glyph.locateEnd .start (runes d)) g r with
      | mk kind rest fault =>
        rw [hlexeme] at hrest hfault
        dsimp only at hrest hfault ⊢
        subst hrest hfault
        rfl

theorem dropWhile_continuesName {r r' q : List Glyph} (hr : r.map (·.rune) = r'.map (·.rune))
    (hq : Ends q) (h : r.dropWhile Glyph.continuesName = []) :
    (r' ++ q).dropWhile Glyph.continuesName = q := by
  have hmap : ∀ l : List Glyph, (l.map (·.rune)).dropWhile (Glyph.continuesName ⟨·, .nowhere⟩) =
      (l.dropWhile Glyph.continuesName).map (·.rune) := fun l => List.dropWhile_map
  have hall : r'.dropWhile Glyph.continuesName = [] := by
    rw [← List.map_eq_nil_iff, ← hmap, ← hr, hmap, h, List.map_nil]
  rw [(takeWhile_append_of_head (fun g hg => Glyph.not_continuesName (hq g hg)) r').2, hall,
    List.nil_append]

theorem read_append {eof eof' : Pos} {g g' : Glyph} {r r' q : List Glyph} {k : TokenKind}
    (hk : k.isPlain) (hrunes : (g :: r).map (·.rune) = (g' :: r').map (·.rune)) (hq : Ends q)
    (h : Lexeme.read eof g r = ⟨k, [], none⟩) : Lexeme.read eof' g' (r' ++ q) = ⟨k, q, none⟩ := by
  obtain ⟨hg, hr⟩ := List.cons_eq_cons.mp hrunes
  have hcode : g'.code = g.code := congrArg Rune.code hg.symm
  have hstarts : g'.startsName = g.startsName := by
    simp only [Glyph.startsName, Glyph.isUnderscore, hcode]
  have hdecimal : g'.isDecimal = g.isDecimal := by
    simp only [Glyph.isDecimal, hcode]
  have hnumber : (⟨if (readNumber eof (g :: r)).isFloat then .float else .int,
        (readNumber eof (g :: r)).rest, (readNumber eof (g :: r)).fault⟩ : Lexeme) = ⟨k, [], none⟩ →
      (⟨if (readNumber eof' (g' :: (r' ++ q))).isFloat then .float else .int,
        (readNumber eof' (g' :: (r' ++ q))).rest, (readNumber eof' (g' :: (r' ++ q))).fault⟩ : Lexeme) =
        ⟨k, q, none⟩ := by
    intro heq
    simp only [Lexeme.mk.injEq] at heq
    obtain ⟨hkind, hrest, hfault⟩ := heq
    have hread : readNumber eof (g :: r) = ⟨(readNumber eof (g :: r)).isFloat, [], none⟩ := by
      rw [← hrest, ← hfault]
    have hnumber : readNumber eof' (g' :: r' ++ q) = ⟨(readNumber eof (g :: r)).isFloat, q, none⟩ :=
      readNumber_append hrunes (List.cons_ne_nil _ _) hq hread
    rw [← List.cons_append, hnumber, hkind]
  simp only [Lexeme.read, hstarts, hdecimal, hcode] at h ⊢
  by_cases hs : g.startsName
  · simp only [hs, if_true, Lexeme.mk.injEq, and_true] at h ⊢
    exact ⟨h.1, dropWhile_continuesName hr hq h.2⟩
  by_cases hd : g.isDecimal
  · simp only [hs, hd, if_true, if_false, Bool.false_eq_true] at h ⊢
    exact hnumber h
  -- What is left of the plain tokens is a number that begins with a point.
  have hquote : g.code ≠ 34 ∧ g.code ≠ 39 ∧ g.code ≠ 96 := by
    refine ⟨?_, ?_, ?_⟩ <;> intro hc <;>
      simp only [hs, hd, hc, Lexeme.ofSkip, if_true, if_false, Lexeme.mk.injEq, Bool.false_eq_true,
        Nat.reduceEqDiff] at h <;>
      rw [← h.1] at hk <;> cases hk
  simp only [hs, hd, hquote, if_false, Bool.false_eq_true] at h ⊢
  by_cases hpoint : g.code = 46 ∧ (r.head?.any Glyph.isDecimal)
  · have hhead : (r' ++ q).head?.any Glyph.isDecimal := by
      cases r with
      | nil => cases hpoint.2
      | cons x r =>
        cases r' with
        | nil => cases hr
        | cons x' r' =>
          have hcode' : x'.code = x.code := congrArg Rune.code (List.cons_eq_cons.mp hr).1.symm
          simpa [Glyph.isDecimal, hcode'] using hpoint.2
    rw [if_pos hpoint] at h
    rw [if_pos ⟨hpoint.1, hhead⟩]
    exact hnumber h
  · rw [if_neg hpoint] at h
    cases h
    cases hk

/-- A text that begins with a byte that ends tokens, or an empty one. -/
def Stops (t : Text) : Prop := ∀ b ∈ t.head?, [(10 : UInt8), 32, 40, 41, 44].contains b

theorem Stops.ends {t : Text} (h : Stops t) {q : List Glyph} (hq : q.map (·.rune) = runes t) :
    Ends q := by
  cases t with
  | nil =>
    obtain rfl : q = [] := List.map_eq_nil_iff.mp hq
    intro g hg
    cases hg
  | cons b t =>
    have hb : [(10 : UInt8), 32, 40, 41, 44].contains b := h b rfl
    simp only [List.contains_iff_mem, List.mem_cons, List.not_mem_nil, or_false] at hb
    have hrunes : runes (b :: t) = Rune.ascii b :: runes t :=
      Text.runes_ascii (t := [b])
        (List.forall_mem_singleton.mpr (by rcases hb with rfl | rfl | rfl | rfl | rfl <;> decide)) t
    rw [hrunes] at hq
    obtain ⟨g, q', rfl, hg, -⟩ := List.map_eq_cons_iff.mp hq
    intro x hx
    cases hx
    have hcode : g.code = b.toNat := congrArg Rune.code hg
    rcases hb with rfl | rfl | rfl | rfl | rfl <;> simp [Glyph.endsToken, hcode]

theorem skipGap_of_code {g : Glyph} (h : g.code ∉ [9, 10, 13, 32, 47]) (eof : Pos) (r : List Glyph) :
    skipGap eof .outside (g :: r) = (g :: r, none) := by
  simp only [List.mem_cons, List.not_mem_nil, or_false, not_or] at h
  rw [skipGap.eq_def]
  simp [Glyph.isBlank, h]

/-- What begins no name, no number and no quoted literal is a mark. -/
theorem read_mark {g : Glyph} (hname : g.startsName = false)
    (hcode : g.code ∉ [34, 39, 46, 96]) (hdecimal : g.isDecimal = false) (eof : Pos)
    (r : List Glyph) : Lexeme.read eof g r = ⟨.mark, r, none⟩ := by
  simp only [List.mem_cons, List.not_mem_nil, or_false, not_or] at hcode
  simp [Lexeme.read, hname, hdecimal, hcode]

theorem code_of_read {eof : Pos} {g : Glyph} {r q : List Glyph} {k : TokenKind} (hk : k.isPlain)
    (h : Lexeme.read eof g r = ⟨k, q, none⟩) : g.code ∉ [9, 10, 13, 32, 47] := by
  intro hcode
  simp only [List.mem_cons, List.not_mem_nil, or_false] at hcode
  rw [read_mark] at h
  · cases h
    cases hk
  all_goals
    rcases hcode with hc | hc | hc | hc | hc <;>
      simp [hc, Glyph.startsName, Glyph.isUnderscore, Text.isLetter, Glyph.isDecimal]

theorem readsAs_of_isTokenOf {kinds : List TokenKind} (hk : ∀ k ∈ kinds, k.isPlain) {d rest : Text}
    (h : isTokenOf kinds d) (hrest : Stops rest) :
    CleanText d ∧ ∃ k ∈ kinds, ReadsAs d k rest := by
  obtain ⟨hclean, g, r, k, eof, hlocate, hmem, hread⟩ := read_of_isTokenOf hk h
  have hrunes := map_rune_locate .start (runes d)
  refine ⟨hclean, k, hmem, fun eof' gs q hgs hq => ?_⟩
  rw [hlocate, ← hgs] at hrunes
  cases gs with
  | nil => cases hrunes
  | cons g' r' =>
    have hlexeme : Lexeme.read eof' g' (r' ++ q) = ⟨k, q, none⟩ :=
      read_append (hk k hmem) hrunes (hrest.ends hq) hread
    exact ⟨g', r', rfl, skipGap_of_code (code_of_read (hk k hmem) hlexeme) eof' _, hlexeme⟩

theorem Lexes.plain {w : Word} (hk : ∀ k ∈ w.kinds, k.isPlain) (h : isTokenOf w.kinds w.value)
    {rest : Text} (hrest : Stops rest) {ws : List Word} (hlexes : Lexes rest ws) :
    Lexes (w.value ++ rest) (w :: ws) := by
  obtain ⟨hclean, k, hmem, hread⟩ := readsAs_of_isTokenOf hk h hrest
  refine .token hclean hread (fun pos => ⟨⟨k, w.value, pos⟩, ?_, rfl, hmem⟩) hlexes
  have hplain := hk k hmem
  cases k <;> first | rfl | cases hplain

/-! ## Marks -/

/-- The marks of scripts: parentheses, comma, minus sign, equals sign and braces. -/
def markBytes : List UInt8 := [40, 41, 44, 45, 61, 123, 125]

theorem readsAs_mark {b : UInt8} (hb : b ∈ markBytes) (rest : Text) :
    CleanText [b] ∧ ReadsAs [b] .mark rest := by
  have hmark : (b.toNat < 0x80 ∧ b ≠ 0) ∧ b.toNat ∉ [9, 10, 13, 32, 47] ∧
      b.toNat ∉ [34, 39, 46, 96] ∧ (decide (b.toNat = 95) || Text.isLetter b.toNat) = false ∧
      (decide (48 ≤ b.toNat) && decide (b.toNat ≤ 57)) = false := by
    simp only [markBytes, List.mem_cons, List.not_mem_nil, or_false] at hb
    rcases hb with rfl | rfl | rfl | rfl | rfl | rfl | rfl <;> decide
  obtain ⟨hascii, hgap, hcode, hname, hdecimal⟩ := hmark
  have hrunes : runes [b] = [Rune.ascii b] := by
    simpa using Text.runes_ascii (t := [b]) (by simpa using hascii.1) []
  refine ⟨cleanText_ascii (by simpa using hascii), fun eof gs q hgs _ => ?_⟩
  rw [hrunes] at hgs
  obtain ⟨g, r, rfl, hg, hr⟩ := List.map_eq_cons_iff.mp hgs
  obtain rfl : r = [] := List.map_eq_nil_iff.mp hr
  have hgcode : g.code = b.toNat := congrArg Rune.code hg
  refine ⟨g, [], rfl, skipGap_of_code (hgcode ▸ hgap) eof _, read_mark ?_ (hgcode ▸ hcode) ?_ eof _⟩
  · simpa only [Glyph.startsName, Glyph.isUnderscore, hgcode] using hname
  · simpa only [Glyph.isDecimal, hgcode] using hdecimal

theorem Lexes.mark {b : UInt8} (hb : b ∈ markBytes) {rest : Text} {ws : List Word}
    (h : Lexes rest ws) : Lexes (b :: rest) (.mark [b] :: ws) := by
  obtain ⟨hclean, hread⟩ := readsAs_mark hb rest
  exact .token hclean hread (fun pos => ⟨⟨.mark, [b], pos⟩, rfl, rfl, .head _⟩) h

/-! ## Strings -/

theorem skipQuoted_step {quote : Nat} {eof : Pos} {s s' : QuotedState} {g : Glyph} {r : List Glyph}
    (h : quotedMove quote s g = (false, .more s')) :
    skipQuoted quote eof s (g :: r) = skipQuoted quote eof s' r := by
  rw [skipQuoted, h]
  simp

theorem isDigitOf_hex {width n : Nat} {g : Glyph} {b : UInt8} (hb : b ∈ Text.hex width n)
    (hg : g.code = b.toNat) : isDigitOf 16 g := by
  obtain ⟨d, hd, rfl⟩ := Text.exists_digit_of_mem_hex hb
  rw [isDigitOf, hg, Text.hexValue?_digit d hd]
  exact decide_eq_true hd

/-- The digits of an escape are skipped, as many as there have to be. -/
theorem skipQuoted_digits {eof : Pos} {ds r : List Glyph} (hds : ds ≠ [])
    (h : ∀ g ∈ ds, isDigitOf 16 g) :
    skipQuoted 34 eof (.digits 16 ds.length) (ds ++ r) = skipQuoted 34 eof .body r := by
  induction ds with
  | nil => exact absurd rfl hds
  | cons g ds ih =>
    have hg := h g List.mem_cons_self
    have hmove : quotedMove 34 (.digits 16 (ds.length + 1)) g =
        (false, .more (digitsLeft 16 ds.length)) := by
      simp [quotedMove, hg]
    rw [List.cons_append, List.length_cons, skipQuoted_step hmove]
    cases ds with
    | nil => rfl
    | cons g' ds =>
      exact ih (List.cons_ne_nil _ _) fun x hx => h x (List.mem_cons_of_mem g hx)

theorem skipQuoted_slash {eof : Pos} {g : Glyph} {r : List Glyph} (hg : g.rune = Rune.ascii 92) :
    skipQuoted 34 eof .body (g :: r) = skipQuoted 34 eof .escape r := by
  have hcode : g.code = 92 := congrArg Rune.code hg
  exact skipQuoted_step (by simp [quotedMove, bodyMove, Glyph.isNewline, hcode])

theorem skipQuoted_numeric {e : UInt8} (he : e.toNat < 0x80) {width n : Nat} (hwidth : 0 < width)
    (hmove : ∀ g : Glyph, g.code = e.toNat →
      quotedMove 34 .escape g = (false, .more (.digits 16 width)))
    {eof : Pos} {gs r : List Glyph}
    (hgs : gs.map (·.rune) = runes (92 :: e :: Text.hex width n)) :
    skipQuoted 34 eof .body (gs ++ r) = skipQuoted 34 eof .body r := by
  have hrunes := Text.runes_digits he width n []
  rw [List.append_nil, Text.runes_nil, List.append_nil] at hrunes
  rw [hrunes] at hgs
  obtain ⟨slash, gs, rfl, hslash, hgs⟩ := List.map_eq_cons_iff.mp hgs
  obtain ⟨letter, ds, rfl, hletter, hds⟩ := List.map_eq_cons_iff.mp hgs
  have hlength : ds.length = width := by
    have hlen := congrArg List.length hds
    rwa [List.length_map, List.length_map, Text.length_hex] at hlen
  have hdigits : ∀ g ∈ ds, isDigitOf 16 g := by
    intro g hg
    have hmem : g.rune ∈ (Text.hex width n).map Rune.ascii := by
      rw [← hds]
      exact List.mem_map_of_mem hg
    obtain ⟨b, hb, hbg⟩ := List.mem_map.mp hmem
    exact isDigitOf_hex hb (congrArg Rune.code hbg.symm)
  rw [List.cons_append, List.cons_append, skipQuoted_slash hslash,
    skipQuoted_step (hmove letter (congrArg Rune.code hletter)), ← hlength]
  exact skipQuoted_digits (fun hnil => by simp [hnil] at hlength; omega) hdigits

theorem isShortEscape_of_letter {e b : UInt8} (h : Text.letterEscape? e.toNat = some b) {g : Glyph}
    (hg : g.code = e.toNat) : isShortEscape 34 g := by
  rw [isShortEscape, hg]
  unfold Text.letterEscape? at h
  split at h
  case h_10 => cases h
  all_goals simp [*]

/-- What is written for a character between quotes is skipped. -/
theorem skipQuoted_escaped {bytes written : Text} (h : Text.Escaped bytes written) {eof : Pos}
    {gs r : List Glyph} (hgs : gs.map (·.rune) = runes written) :
    skipQuoted 34 eof .body (gs ++ r) = skipQuoted 34 eof .body r := by
  cases h with
  | @plain code scalar free =>
    have hrunes := Text.runes_encode scalar []
    rw [List.append_nil, Text.runes_nil] at hrunes
    rw [hrunes] at hgs
    obtain ⟨g, gs, rfl, hg, hnil⟩ := List.map_eq_cons_iff.mp hgs
    obtain rfl : gs = [] := List.map_eq_nil_iff.mp hnil
    have hcode : g.code = code := congrArg Rune.code hg
    simp only [List.mem_cons, List.not_mem_nil, or_false, not_or] at free
    obtain ⟨-, hnewline, hquote, hslash⟩ := free
    exact skipQuoted_step (by simp [quotedMove, bodyMove, Glyph.isNewline, hcode, hquote, hnewline, hslash])
  | @letter e b means =>
    have hrunes := Text.runes_letter (Text.lt_of_letterEscape? means) []
    rw [Text.runes_nil] at hrunes
    rw [hrunes] at hgs
    obtain ⟨slash, gs, rfl, hslash, hgs⟩ := List.map_eq_cons_iff.mp hgs
    obtain ⟨letter, gs, rfl, hletter, hnil⟩ := List.map_eq_cons_iff.mp hgs
    obtain rfl : gs = [] := List.map_eq_nil_iff.mp hnil
    have hshort := isShortEscape_of_letter means (congrArg Rune.code hletter)
    rw [List.cons_append, List.cons_append, List.nil_append, skipQuoted_slash hslash]
    exact skipQuoted_step (by simp [quotedMove, hshort])
  | byte b =>
    exact skipQuoted_numeric (by decide) (by decide)
      (fun g hg => by simp [quotedMove, isShortEscape, isDigitOf, Text.hexValue?, hg]) hgs
  | @short code scalar fits =>
    exact skipQuoted_numeric (by decide) (by decide)
      (fun g hg => by simp [quotedMove, isShortEscape, isDigitOf, Text.hexValue?, hg]) hgs
  | @long code scalar =>
    exact skipQuoted_numeric (by decide) (by decide)
      (fun g hg => by simp [quotedMove, isShortEscape, isDigitOf, Text.hexValue?, hg]) hgs

theorem cleanText_numeric {e : UInt8} (he : e.toNat < 0x80 ∧ e ≠ 0) (width n : Nat) :
    CleanText (92 :: e :: Text.hex width n) := by
  refine cleanText_ascii fun b hb => ?_
  rcases List.mem_cons.mp hb with rfl | hb
  · decide
  rcases List.mem_cons.mp hb with rfl | hb
  · exact he
  obtain ⟨d, hd, rfl⟩ := Text.exists_digit_of_mem_hex hb
  have hdigit : ∀ d < 16, (Text.byte (Nat.digitChar d)).toNat < 0x80 ∧
      Text.byte (Nat.digitChar d) ≠ 0 := by decide
  exact hdigit d hd

theorem cleanText_escaped {bytes written : Text} (h : Text.Escaped bytes written) :
    CleanText written := by
  cases h with
  | @plain code scalar free =>
    have hrunes := Text.runes_encode scalar []
    rw [List.append_nil, Text.runes_nil] at hrunes
    intro c hc
    rw [hrunes, List.mem_singleton] at hc
    have hzero : code ≠ 0 := fun hzero => free (by simp [hzero])
    simpa [hc, isClean, Rune.ofCode] using hzero
  | @letter e b means =>
    have hzero : e ≠ 0 := by
      rintro rfl
      cases means
    exact cleanText_ascii (by simpa using ⟨Text.lt_of_letterEscape? means, hzero⟩)
  | byte b => exact cleanText_numeric (by decide) 2 _
  | short _ _ => exact cleanText_numeric (by decide) 4 _
  | long _ => exact cleanText_numeric (by decide) 8 _

section

variable {v : Text} {cs : List Rune} (hcs : cs ⊆ runes v)
include hcs

theorem cleanText_body : CleanText (cs.flatMap Text.escapeRune) := by
  induction cs with
  | nil => exact List.forall_mem_nil _
  | cons c cs ih =>
    obtain ⟨hc, hcs⟩ := List.cons_subset.mp hcs
    exact (cleanText_escaped (Text.escaped_of_mem_runes hc)).append (ih hcs)

theorem skipQuoted_body {eof : Pos} {gs r : List Glyph}
    (hgs : gs.map (·.rune) = runes (cs.flatMap Text.escapeRune)) :
    skipQuoted 34 eof .body (gs ++ r) = skipQuoted 34 eof .body r := by
  induction cs generalizing gs with
  | nil =>
    obtain rfl : gs = [] := List.map_eq_nil_iff.mp hgs
    rfl
  | cons c cs ih =>
    obtain ⟨hc, hcs⟩ := List.cons_subset.mp hcs
    have hescaped := Text.escaped_of_mem_runes hc
    rw [List.flatMap_cons, (cleanText_escaped hescaped).runes_append] at hgs
    obtain ⟨front, back, rfl, hfront, hback⟩ := List.map_eq_append_iff.mp hgs
    rw [List.append_assoc, skipQuoted_escaped hescaped hfront]
    exact ih hcs hback

end

/-- A quoted text is read as a string, whatever stands behind it. -/
theorem readsAs_quote (v rest : Text) : CleanText (Text.quote v) ∧ ReadsAs (Text.quote v) .string rest := by
  have hmark : CleanText [34] := cleanText_ascii (List.forall_mem_singleton.mpr (by decide))
  have hbody := cleanText_body (List.Subset.refl (runes v))
  have hrunes : runes (Text.quote v) =
      Rune.ascii 34 :: (runes ((runes v).flatMap Text.escapeRune) ++ [Rune.ascii 34]) := by
    have hone : runes [34] = [Rune.ascii 34] := rfl
    have hfirst := hmark.runes_append ((runes v).flatMap Text.escapeRune ++ [34])
    rw [hone, hbody.runes_append, hone] at hfirst
    exact hfirst
  refine ⟨hmark.append (hbody.append hmark), fun eof gs q hgs _ => ?_⟩
  rw [hrunes] at hgs
  obtain ⟨g, gs, rfl, hg, hgs⟩ := List.map_eq_cons_iff.mp hgs
  obtain ⟨body, last, rfl, hgsBody, hlast⟩ := List.map_eq_append_iff.mp hgs
  obtain ⟨close, last, rfl, hclose, hnil⟩ := List.map_eq_cons_iff.mp hlast
  obtain rfl : last = [] := List.map_eq_nil_iff.mp hnil
  have hcode : g.code = 34 := congrArg Rune.code hg
  have hcloseCode : close.code = 34 := congrArg Rune.code hclose
  refine ⟨g, body ++ [close], rfl, skipGap_of_code (by simp [hcode]) eof _, ?_⟩
  have hskip : skipQuoted 34 eof .body (body ++ close :: q) = (q, none) := by
    rw [skipQuoted_body (List.Subset.refl (runes v)) hgsBody, skipQuoted]
    simp [quotedMove, bodyMove, hcloseCode]
  simp [Lexeme.read, Glyph.startsName, Glyph.isUnderscore, Text.isLetter, Glyph.isDecimal, hcode,
    hskip, Lexeme.ofSkip]

theorem Lexes.string (v : Text) {rest : Text} {ws : List Word} (h : Lexes rest ws) :
    Lexes (Text.quote v ++ rest) (.string v :: ws) := by
  obtain ⟨hclean, hread⟩ := readsAs_quote v rest
  refine .token hclean hread (fun pos => ⟨⟨.string, v, pos⟩, ?_, rfl, .head _⟩) h
  rw [tokenOf, Text.unquote?_quote]

end Assembly.Script
