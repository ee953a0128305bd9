import Assembly.Proofs.Script.Lexing

/-!
# Numbers in context

A number that is read to the end of a text is read the same when other tokens stand around it:
its reading depends on its characters alone, not on their positions, and stops at a blank, a
parenthesis or a comma.
-/

namespace Assembly.Script

/-! ## Characters behind tokens -/

/-- Characters that end a name or a number: newline, space, parentheses and comma. -/
def Glyph.endsToken (g : Glyph) : Bool := [10, 32, 40, 41, 44].contains g.code

/-- Nothing follows, or a character that ends a token. -/
def Ends (gs : List Glyph) : Prop := ∀ g ∈ gs.head?, g.endsToken

theorem Glyph.code_of_endsToken {g : Glyph} (h : g.endsToken) :
    g.code = 10 ∨ g.code = 32 ∨ g.code = 40 ∨ g.code = 41 ∨ g.code = 44 := by
  simpa [endsToken] using h

theorem Glyph.not_continuesName {g : Glyph} (h : g.endsToken) : g.continuesName = false := by
  rcases code_of_endsToken h with h | h | h | h | h <;>
    simp [continuesName, startsName, isUnderscore, Text.isLetter, Text.isDigitCode, h]

theorem Glyph.not_isUnderscore {g : Glyph} (h : g.endsToken) : g.isUnderscore = false := by
  rcases code_of_endsToken h with h | h | h | h | h <;> simp [isUnderscore, h]

theorem Radix.not_takes {g : Glyph} (h : g.endsToken) (radix : Radix) : radix.takes g = false := by
  rcases Glyph.code_of_endsToken h with h | h | h | h | h <;>
    simp [takes, Glyph.isDecimal, Text.hexValue?, h]

theorem Glyph.not_isDecimal {g : Glyph} (h : g.endsToken) : g.isDecimal = false :=
  Radix.not_takes h .decimal

/-! ## The parts of a number -/

structure NumberParts where
  radix : Radix
  whole : List Glyph
  fraction : Option (List Glyph)
  exponent : Option (Glyph × List Glyph)
  rest : List Glyph

def numberParts (gs : List Glyph) : NumberParts :=
  let body := readRadix gs
  let whole := readDigits body.1.takes body.2
  let fraction := readFraction body.1 whole.2
  let exponent := readExponent fraction.2
  ⟨body.1, whole.1, fraction.1, exponent.1, exponent.2⟩

namespace NumberParts

def isFloat (n : NumberParts) : Bool := n.fraction.isSome || n.exponent.isSome

/-- Nothing is wrong with a number of these parts and this text: it has a point only where its
notation allows one, it has digits, an exponent has the right letter and digits, a hexadecimal
fraction has an exponent, no digit of an integer is too large, and underscores stand between
digits. -/
def Sound (n : NumberParts) (text : Text) : Prop :=
  ¬(n.fraction.isSome ∧ (n.radix = .octal ∨ n.radix = .binary)) ∧
    hasDigit (n.whole ++ n.fraction.getD []) ∧
    (∀ e ∈ n.exponent, exponentFault? n.radix e.1 = none) ∧
    (∀ e ∈ n.exponent, hasDigit e.2) ∧
    (n.exponent = none → ¬(n.radix = .hexadecimal ∧ n.fraction.isSome)) ∧
    (n.isFloat ∨ ∀ g ∈ n.whole, (g.isDecimal && n.radix.base ≤ g.code - 48) = false) ∧
    Numeral.separatorsOk text

end NumberParts

theorem ite_some_eq_none {α : Type} {p : Prop} [Decidable p] {a : α} :
    (if p then some a else none) = none ↔ ¬p := by
  split <;> simp [*]

theorem ite_none_eq_none {α : Type} {p : Prop} [Decidable p] {o : Option α} :
    (if p then none else o) = none ↔ p ∨ o = none := by
  split <;> simp [*]

theorem readNumber_fault_eq_none_iff (eof : Pos) (gs : List Glyph) :
    (readNumber eof gs).fault = none ↔ (numberParts gs).Sound
      (Glyph.text (gs.take (gs.length - (numberParts gs).rest.length))) := by
  simp only [readNumber, Option.or_eq_none_iff, ite_some_eq_none, ite_none_eq_none,
    Option.map_eq_none_iff, List.find?_eq_none, numberParts]
  generalize readRadix gs = body
  generalize readDigits body.1.takes body.2 = whole
  generalize readFraction body.1 whole.2 = fraction
  generalize readExponent fraction.2 = exponent
  obtain ⟨exponent, rest⟩ := exponent
  constructor
  · rintro ⟨hsep, hsmall, hpower, hletter, hdigits, hpoint⟩
    refine ⟨hpoint, by simpa using hdigits, ?_, ?_, ?_, ?_, by simpa using hsep⟩
    · rintro e rfl
      simpa using hletter
    · rintro e rfl
      simpa [ite_none_eq_none] using hpower
    · rintro rfl
      simpa [ite_some_eq_none] using hpower
    · simpa [NumberParts.isFloat] using hsmall
  · rintro ⟨hpoint, hdigits, hletter, hpower, hhex, hsmall, hsep⟩
    refine ⟨by simpa using hsep, by simpa [NumberParts.isFloat] using hsmall, ?_, ?_,
      by simpa using hdigits, hpoint⟩
    · cases exponent with
      | none => simpa [ite_some_eq_none] using hhex rfl
      | some e => simpa [ite_none_eq_none] using hpower e rfl
    · cases exponent with
      | none => rfl
      | some e => simpa using hletter e rfl

/-! ## What stands behind -/

theorem takeWhile_append_of_head {p : Glyph → Bool} {q : List Glyph}
    (hq : ∀ g ∈ q.head?, p g = false) (gs : List Glyph) :
    (gs ++ q).takeWhile p = gs.takeWhile p ∧ (gs ++ q).dropWhile p = gs.dropWhile p ++ q := by
  induction gs with
  | nil =>
    cases q with
    | nil => exact ⟨rfl, rfl⟩
    | cons g r =>
      have hg := hq g rfl
      simp [hg]
  | cons g gs ih =>
    cases hg : p g with
    | true => simp [hg, ih]
    | false => simp [hg]

theorem readDigits_append {isDigit : Glyph → Bool} {q : List Glyph}
    (hq : ∀ g ∈ q.head?, isDigit g = false ∧ g.isUnderscore = false) (gs : List Glyph) :
    readDigits isDigit (gs ++ q) = ((readDigits isDigit gs).1, (readDigits isDigit gs).2 ++ q) := by
  have hends : ∀ g ∈ q.head?, (isDigit g || g.isUnderscore) = false := fun g hg => by simp [hq g hg]
  have hboth := takeWhile_append_of_head hends gs
  rw [readDigits, hboth.1, hboth.2]
  rfl

section

variable {q : List Glyph} (hq : Ends q)
include hq

theorem readRadix_append {gs : List Glyph} (hgs : gs ≠ []) :
    readRadix (gs ++ q) = ((readRadix gs).1, (readRadix gs).2 ++ q) := by
  match gs, q with
  | [], _ => exact absurd rfl hgs
  | g :: h :: r, q =>
    simp only [List.cons_append, readRadix]
    split
    · rfl
    · split
      · rfl
      · split
        · rfl
        · split <;> rfl
  | [g], [] => rfl
  | [g], e :: r =>
    have hends : e.endsToken := hq e rfl
    have hletter : ∀ n, n ∈ [120, 111, 98] → isLetterPair n e = false := by
      intro n hn
      simp only [List.mem_cons, List.not_mem_nil, or_false] at hn
      rcases Glyph.code_of_endsToken hends with h | h | h | h | h <;>
        rcases hn with rfl | rfl | rfl <;> simp [isLetterPair, h]
    simp only [List.cons_append, List.nil_append, readRadix]
    rw [hletter 120 (by decide), hletter 111 (by decide), hletter 98 (by decide)]
    by_cases hzero : g.code = 48 <;> simp [hzero]

theorem readFraction_append (radix : Radix) (gs : List Glyph) :
    readFraction radix (gs ++ q) = ((readFraction radix gs).1, (readFraction radix gs).2 ++ q) := by
  have hdigits : ∀ g ∈ q.head?, radix.takes g = false ∧ g.isUnderscore = false :=
    fun g hg => ⟨Radix.not_takes (hq g hg) radix, Glyph.not_isUnderscore (hq g hg)⟩
  match gs, q with
  | g :: r, q =>
    simp only [List.cons_append, readFraction]
    split
    · rw [readDigits_append hdigits]
    · rfl
  | [], [] => rfl
  | [], e :: r =>
    have hpoint : e.code ≠ 46 := by
      rcases Glyph.code_of_endsToken (hq e rfl) with h | h | h | h | h <;> omega
    simp [readFraction, hpoint]

theorem readExponent_append (gs : List Glyph) :
    readExponent (gs ++ q) = ((readExponent gs).1, (readExponent gs).2 ++ q) := by
  have hdigits : ∀ g ∈ q.head?, g.isDecimal = false ∧ g.isUnderscore = false :=
    fun g hg => ⟨Glyph.not_isDecimal (hq g hg), Glyph.not_isUnderscore (hq g hg)⟩
  match gs, q with
  | [], [] => rfl
  | [], e :: r =>
    have hletter : isLetterPair 101 e = false ∧ isLetterPair 112 e = false := by
      rcases Glyph.code_of_endsToken (hq e rfl) with h | h | h | h | h <;> simp [isLetterPair, h]
    simp [readExponent, hletter]
  | e :: s :: r, q =>
    simp only [List.cons_append, readExponent]
    split
    · have hunsigned : (if s.code = 43 ∨ s.code = 45 then r ++ q else s :: (r ++ q)) =
          (if s.code = 43 ∨ s.code = 45 then r else s :: r) ++ q := by
        split <;> rfl
      rw [hunsigned, readDigits_append hdigits]
    · rfl
  | [e], [] => simp only [List.append_nil]
  | [e], s :: r =>
    have hsign : ¬(s.code = 43 ∨ s.code = 45) := by
      rcases Glyph.code_of_endsToken (hq s rfl) with h | h | h | h | h <;> omega
    have hnone := readDigits_append hdigits []
    simp only [List.cons_append, List.nil_append, readExponent, if_neg hsign] at hnone ⊢
    split
    · rw [hnone]
    · rfl

/-- What ends a token is not taken for a part of a number. -/
theorem numberParts_append {gs : List Glyph} (hgs : gs ≠ []) :
    numberParts (gs ++ q) = { numberParts gs with rest := (numberParts gs).rest ++ q } := by
  have hdigits : ∀ (radix : Radix), ∀ g ∈ q.head?, radix.takes g = false ∧ g.isUnderscore = false :=
    fun radix g hg => ⟨Radix.not_takes (hq g hg) radix, Glyph.not_isUnderscore (hq g hg)⟩
  simp only [numberParts, readRadix_append hq hgs, readDigits_append (hdigits _),
    readFraction_append hq, readExponent_append hq]

end

/-! ## Positions do not matter -/

/-- A character at no position. -/
def Glyph.unplaced (g : Glyph) : Glyph := ⟨g.rune, .nowhere⟩

@[simp] theorem Glyph.code_unplaced (g : Glyph) : g.unplaced.code = g.code := by
  cases g
  rfl

@[simp] theorem Glyph.isUnderscore_unplaced (g : Glyph) :
    g.unplaced.isUnderscore = g.isUnderscore := by
  cases g
  rfl

@[simp] theorem isLetterPair_unplaced (lower : Nat) (g : Glyph) :
    isLetterPair lower g.unplaced = isLetterPair lower g := by
  cases g
  rfl

theorem readDigits_unplaced {isDigit : Glyph → Bool} (h : ∀ g : Glyph, isDigit g.unplaced = isDigit g)
    (gs : List Glyph) : readDigits isDigit (gs.map Glyph.unplaced) =
      ((readDigits isDigit gs).1.map Glyph.unplaced, (readDigits isDigit gs).2.map Glyph.unplaced) := by
  have hmark : (fun g => isDigit g || g.isUnderscore) ∘ Glyph.unplaced =
      fun g => isDigit g || g.isUnderscore := by
    funext g
    simp [h]
  simp only [readDigits, List.takeWhile_map, List.dropWhile_map, hmark]

theorem readRadix_unplaced (gs : List Glyph) : readRadix (gs.map Glyph.unplaced) =
    ((readRadix gs).1, (readRadix gs).2.map Glyph.unplaced) := by
  match gs with
  | [] => rfl
  | [g] => rfl
  | g :: h :: r =>
    simp only [List.map_cons, readRadix, Glyph.code_unplaced, isLetterPair_unplaced]
    split
    · rfl
    · split
      · rfl
      · split
        · rfl
        · split <;> rfl

theorem Radix.takes_unplaced (radix : Radix) (g : Glyph) : radix.takes g.unplaced = radix.takes g := rfl

theorem readFraction_unplaced (radix : Radix) (gs : List Glyph) :
    readFraction radix (gs.map Glyph.unplaced) = ((readFraction radix gs).1.map (·.map Glyph.unplaced),
      (readFraction radix gs).2.map Glyph.unplaced) := by
  cases gs with
  | nil => rfl
  | cons g r =>
    simp only [List.map_cons, readFraction, Glyph.code_unplaced,
      readDigits_unplaced radix.takes_unplaced]
    split <;> rfl

theorem readExponent_unplaced (gs : List Glyph) :
    readExponent (gs.map Glyph.unplaced) =
      ((readExponent gs).1.map fun e => (e.1.unplaced, e.2.map Glyph.unplaced),
        (readExponent gs).2.map Glyph.unplaced) := by
  have hdecimal : ∀ g : Glyph, g.unplaced.isDecimal = g.isDecimal := fun _ => rfl
  match gs with
  | [] => rfl
  | [e] =>
    simp only [List.map_cons, List.map_nil, readExponent, isLetterPair_unplaced]
    split <;> rfl
  | e :: s :: r =>
    simp only [List.map_cons, readExponent, isLetterPair_unplaced, Glyph.code_unplaced]
    split
    · have hunsigned : (if s.code = 43 ∨ s.code = 45 then r.map Glyph.unplaced
          else s.unplaced :: r.map Glyph.unplaced) =
          (if s.code = 43 ∨ s.code = 45 then r else s :: r).map Glyph.unplaced := by
        split <;> rfl
      rw [hunsigned, readDigits_unplaced hdecimal]
      rfl
    · rfl

def NumberParts.unplaced (n : NumberParts) : NumberParts :=
  ⟨n.radix, n.whole.map Glyph.unplaced, n.fraction.map (·.map Glyph.unplaced),
    n.exponent.map fun e => (e.1.unplaced, e.2.map Glyph.unplaced), n.rest.map Glyph.unplaced⟩

theorem numberParts_unplaced (gs : List Glyph) :
    numberParts (gs.map Glyph.unplaced) = (numberParts gs).unplaced := by
  simp only [numberParts, readRadix_unplaced, readDigits_unplaced (Radix.takes_unplaced _),
    readFraction_unplaced, readExponent_unplaced, NumberParts.unplaced]

theorem hasDigit_unplaced (gs : List Glyph) : hasDigit (gs.map Glyph.unplaced) = hasDigit gs := by
  simp [hasDigit, List.any_map, Function.comp_def]

theorem NumberParts.sound_unplaced {n : NumberParts} {text : Text} :
    n.unplaced.Sound text ↔ n.Sound text := by
  obtain ⟨radix, whole, fraction, exponent, rest⟩ := n
  have hdigits : hasDigit (whole.map Glyph.unplaced ++ (fraction.map (·.map Glyph.unplaced)).getD []) =
      hasDigit (whole ++ fraction.getD []) := by
    rw [← hasDigit_unplaced (whole ++ _), List.map_append]
    cases fraction <;> rfl
  have hletter : ∀ e : Glyph, exponentFault? radix e.unplaced = exponentFault? radix e := fun _ => rfl
  have hdecimal : ∀ g : Glyph, g.unplaced.isDecimal = g.isDecimal := fun _ => rfl
  cases exponent <;>
    simp [Sound, unplaced, isFloat, hdigits, hletter, hdecimal, hasDigit_unplaced]

/-- Glyphs with the same characters are the same but for their positions. -/
theorem map_unplaced_eq {gs gs' : List Glyph} (h : gs.map (·.rune) = gs'.map (·.rune)) :
    gs.map Glyph.unplaced = gs'.map Glyph.unplaced := by
  have hmap : ∀ l : List Glyph, l.map Glyph.unplaced = (l.map (·.rune)).map (⟨·, .nowhere⟩) := by
    intro l
    rw [List.map_map]
    rfl
  rw [hmap, hmap, h]

theorem text_eq {gs gs' : List Glyph} (h : gs.map (·.rune) = gs'.map (·.rune)) :
    Glyph.text gs = Glyph.text gs' := by
  have hmap : ∀ l : List Glyph, Glyph.text l = (l.map (·.rune)).flatMap (·.bytes) := by
    intro l
    rw [List.flatMap_map]
    rfl
  rw [hmap, hmap, h]

/-- A number that is read to the end of a text is read as it is in every context. -/
theorem readNumber_append {eof eof' : Pos} {gs gs' q : List Glyph} {isFloat : Bool}
    (hrunes : gs.map (·.rune) = gs'.map (·.rune)) (hgs : gs ≠ []) (hq : Ends q)
    (h : readNumber eof gs = ⟨isFloat, [], none⟩) :
    readNumber eof' (gs' ++ q) = ⟨isFloat, q, none⟩ := by
  have hgs' : gs' ≠ [] := by
    rintro rfl
    exact hgs (List.map_eq_nil_iff.mp hrunes)
  have hunplaced := congrArg numberParts (map_unplaced_eq hrunes)
  rw [numberParts_unplaced, numberParts_unplaced] at hunplaced
  have hrest : (numberParts gs).rest = [] := congrArg NumberLexeme.rest h
  have hrest' : (numberParts gs').rest = [] := by
    have heq := congrArg NumberParts.rest hunplaced
    simp only [NumberParts.unplaced, hrest, List.map_nil] at heq
    exact List.map_eq_nil_iff.mp heq.symm
  have hfloat : (numberParts gs').isFloat = isFloat := by
    have heq := congrArg NumberParts.isFloat hunplaced
    simp only [NumberParts.isFloat, NumberParts.unplaced, Option.isSome_map] at heq
    exact heq.symm.trans (congrArg NumberLexeme.isFloat h)
  have hsound := (readNumber_fault_eq_none_iff eof gs).mp (congrArg NumberLexeme.fault h)
  rw [hrest, List.length_nil, Nat.sub_zero, List.take_length, ← NumberParts.sound_unplaced, hunplaced,
    NumberParts.sound_unplaced, text_eq hrunes] at hsound
  have hparts := numberParts_append hq hgs'
  have hfault : (readNumber eof' (gs' ++ q)).fault = none := by
    rw [readNumber_fault_eq_none_iff, hparts, hrest']
    simpa [NumberParts.Sound, NumberParts.isFloat] using hsound
  have hisFloat : (readNumber eof' (gs' ++ q)).isFloat = isFloat := by
    show (numberParts (gs' ++ q)).isFloat = isFloat
    rw [hparts]
    exact hfloat
  have hend : (readNumber eof' (gs' ++ q)).rest = q := by
    show (numberParts (gs' ++ q)).rest = q
    rw [hparts, hrest']
    rfl
  cases hn : readNumber eof' (gs' ++ q) with
  | mk f r x =>
    rw [hn] at hfault hisFloat hend
    dsimp only at hfault hisFloat hend
    subst hfault hisFloat hend
    rfl

end Assembly.Script
