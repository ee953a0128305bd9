import Mathlib.Data.List.TakeWhile
import Assembly.Value

/-!
# Notations of numbers

A numeral that is accepted is a word for infinity or for no number, a hexadecimal with its binary
exponent, or a decimal.  Of the decimals, those without a point and an exponent are the whole
numbers: digits, with single underscores between them.  `quantity` is what a numeral denotes,
whatever its notation.
-/

namespace Assembly

/-- An exact number with its sign, which zero has too, an infinity, or no number. -/
inductive Quantity
  | finite (negative : Bool) (magnitude : Rat)
  | infinite (negative : Bool)
  | nan
deriving DecidableEq, Repr

namespace Numeral

open Text

/-- What a numeral denotes. -/
def quantity : Numeral → Quantity
  | .finite negative mantissa radix (.ofNat e) =>
    .finite negative (mkRat (mantissa * Nat.pow radix e : Nat) 1)
  | .finite negative mantissa radix (.negSucc e) =>
    .finite negative (mkRat mantissa (Nat.pow radix (e + 1)))
  | .infinite negative => .infinite negative
  | .nan => .nan

/-! ## Signs and words -/

/-- What follows the sign of a numeral, if it has one. -/
def unsigned : Text → Text
  | 43 :: r => r
  | 45 :: r => r
  | t => t

def isNegative (t : Text) : Bool := t.head? = some 45

theorem ofText?_eq (t : Text) : ofText? t =
    if asciiLower t == ofString "nan" then some .nan
    else ofText?.signed (isNegative t) (unsigned t) := by
  cases t with
  | nil => rfl
  | cons c r =>
    by_cases hplus : c = 43
    · subst hplus
      rfl
    by_cases hminus : c = 45
    · subst hminus
      rfl
    simp [ofText?, unsigned, isNegative, hplus, hminus]

theorem not_word_of_mem {t : Text} (h : 46 ∈ t) :
    (asciiLower t == ofString "nan") = false ∧ isInfinityWord t = false := by
  have hlower : 46 ∈ asciiLower t := List.mem_map.mpr ⟨46, h, rfl⟩
  have hne : ∀ w : Text, 46 ∉ w → (asciiLower t == w) = false := by
    intro w hw
    rw [beq_eq_false_iff_ne]
    rintro rfl
    exact hw hlower
  exact ⟨hne _ (by decide), by simp [isInfinityWord, hne _ (by decide : 46 ∉ ofString "inf"),
    hne _ (by decide : 46 ∉ ofString "infinity")]⟩

/-- The words of the notation. -/
def isWord (t : Text) : Bool := asciiLower t == ofString "nan" || isInfinityWord t

theorem head_of_isWord {t : Text} (h : isWord t = true) :
    ∃ c r, t = c :: r ∧ (c = 73 ∨ c = 78 ∨ c = 105 ∨ c = 110) := by
  have hletter : ∀ c : UInt8, (if 65 ≤ c ∧ c ≤ 90 then c + 32 else c) = 105 ∨
      (if 65 ≤ c ∧ c ≤ 90 then c + 32 else c) = 110 → c = 73 ∨ c = 78 ∨ c = 105 ∨ c = 110 := by
    intro c hc
    split at hc
    · grind
    · grind
  cases t with
  | nil => exact absurd h (by decide)
  | cons c r =>
    refine ⟨c, r, rfl, hletter c ?_⟩
    simp only [isWord, isInfinityWord, asciiLower, Bool.or_eq_true, beq_iff_eq, List.map_cons] at h
    rcases h with h | h | h
    · exact .inr (List.cons.inj h).1
    · exact .inl (List.cons.inj h).1
    · exact .inl (List.cons.inj h).1

/-! ## Mantissas -/

/-- Digits of a base, and underscores. -/
def isDigitMark (p : UInt8 → Bool) (c : UInt8) : Bool := p c || c == 95

theorem mantissaParts_eq (p : UInt8 → Bool) (t : Text) : mantissaParts p t =
    match t.dropWhile (isDigitMark p) with
    | 46 :: r =>
      (t.takeWhile (isDigitMark p), r.takeWhile (isDigitMark p), r.dropWhile (isDigitMark p))
    | rest => (t.takeWhile (isDigitMark p), [], rest) := rfl

section

variable {p : UInt8 → Bool} {t : Text}

theorem mantissaParts_of_all (h : ∀ c ∈ t, isDigitMark p c) : mantissaParts p t = (t, [], []) := by
  rw [mantissaParts_eq, List.dropWhile_eq_nil_iff.mpr h, List.takeWhile_eq_self_iff.mpr h]

theorem mantissaParts_point (hp : isDigitMark p 46 = false) (h : ∀ c ∈ t, isDigitMark p c)
    (u : Text) : mantissaParts p (t ++ 46 :: u) =
      (t, u.takeWhile (isDigitMark p), u.dropWhile (isDigitMark p)) := by
  have hrest : (46 :: u).dropWhile (isDigitMark p) = 46 :: u := by
    rw [List.dropWhile_cons, hp]
    rfl
  have hnone : (46 :: u).takeWhile (isDigitMark p) = [] := by
    rw [List.takeWhile_cons, hp]
    rfl
  rw [mantissaParts_eq, List.dropWhile_append_of_pos h, List.takeWhile_append_of_pos h, hrest, hnone,
    List.append_nil]
  rfl

/-- Where no point ends the first digits, there is no fraction. -/
theorem mantissaParts_of_dropWhile {c : UInt8} {r : Text} (hc : c ≠ 46)
    (h : t.dropWhile (isDigitMark p) = c :: r) :
    mantissaParts p t = (t.takeWhile (isDigitMark p), [], c :: r) := by
  rw [mantissaParts_eq, h]
  split
  next hcons => exact absurd (List.cons.inj hcons).1 hc
  next => rfl

/-- Text behind a mantissa that has ended changes nothing in it. -/
theorem mantissaParts_append {c : UInt8} {r : Text} (hc : c ≠ 46)
    (h : t.dropWhile (isDigitMark p) = c :: r) (u : Text) :
    mantissaParts p (t ++ u) = (t.takeWhile (isDigitMark p), [], c :: (r ++ u)) := by
  have hdrop : (t ++ u).dropWhile (isDigitMark p) = c :: (r ++ u) := by
    rw [List.dropWhile_append, h]
    rfl
  have htake : (t ++ u).takeWhile (isDigitMark p) = t.takeWhile (isDigitMark p) := by
    have hwhole := List.takeWhile_append_dropWhile (p := isDigitMark p) (l := t ++ u)
    have hfirst := List.takeWhile_append_dropWhile (p := isDigitMark p) (l := t)
    rw [hdrop] at hwhole
    rw [h] at hfirst
    have heq : (t ++ u).takeWhile (isDigitMark p) ++ (c :: (r ++ u)) =
        t.takeWhile (isDigitMark p) ++ (c :: (r ++ u)) := by
      rw [hwhole, ← List.cons_append, ← List.append_assoc, hfirst]
    exact List.append_cancel_right heq
  rw [mantissaParts_of_dropWhile hc hdrop, htake]

theorem mantissaParts_rest_subset (p : UInt8 → Bool) (t : Text) : (mantissaParts p t).2.2 ⊆ t := by
  have hdrop : t.dropWhile (isDigitMark p) ⊆ t := (List.dropWhile_sublist _).subset
  rw [mantissaParts_eq]
  split
  next r hrest =>
    rw [hrest] at hdrop
    intro c hc
    exact hdrop (List.mem_cons_of_mem 46 ((List.dropWhile_sublist _).subset hc))
  next => exact hdrop

end

theorem exponent?_eq_none_of_mem {t : Text} (h : 46 ∈ t) : exponent? t = none := by
  have hunsigned : ∀ r : Text, 46 ∈ r → exponent?.unsigned r = none := by
    intro r hr
    rw [exponent?.unsigned]
    refine if_neg fun hcond => ?_
    have hmark := List.all_eq_true.mp hcond.2 46 hr
    cases hmark
  cases t with
  | nil => cases h
  | cons c r =>
    by_cases hplus : c = 43
    · subst hplus
      exact hunsigned r (by simpa using h)
    by_cases hminus : c = 45
    · subst hminus
      show (exponent?.unsigned r).map _ = none
      rw [hunsigned r (by simpa using h)]
      rfl
    have hexp : exponent? (c :: r) = exponent?.unsigned (c :: r) := by
      simp [exponent?, hplus, hminus]
    rw [hexp, hunsigned _ h]

/-! ## Whole numbers -/

/-- Digits with underscores between them, one digit at least. -/
def IsWhole (t : Text) : Prop := t.all (isDigitMark isDigit) = true ∧ digitCount t ≠ 0

instance (t : Text) : Decidable (IsWhole t) :=
  inferInstanceAs (Decidable (t.all (isDigitMark isDigit) = true ∧ digitCount t ≠ 0))

theorem IsWhole.mark {t : Text} (h : IsWhole t) : ∀ c ∈ t, isDigitMark isDigit c :=
  List.all_eq_true.mp h.1

section

variable {t : Text} (negative : Bool)

theorem decimal?_whole (h : IsWhole t) :
    decimal? negative t = some (.finite negative (magnitude 10 t) 10 0) := by
  rw [decimal?, mantissaParts_of_all h.mark]
  simp only [List.append_nil]
  rw [if_neg h.2]
  rfl

theorem magnitude_append_zero (t : Text) : magnitude 10 (t ++ [48]) = magnitude 10 t * 10 := by
  simp [magnitude, hexValue?]

/-- A fraction of one zero moves the point by one place. -/
theorem decimal?_whole_point (h : IsWhole t) :
    decimal? negative (t ++ ".0") = some (.finite negative (magnitude 10 t * 10) 10 (-1)) := by
  have hparts : mantissaParts isDigit (t ++ ofString ".0") = (t, [48], []) :=
    mantissaParts_point rfl h.mark [48]
  have hcount : digitCount (t ++ [48]) ≠ 0 := by simp [digitCount]
  rw [decimal?, hparts]
  simp only [magnitude_append_zero]
  rw [if_neg hcount]
  rfl

theorem isWhole_of_decimal? {n : Numeral} (h : decimal? negative t = some n)
    (hplain : hasAny ".eE" t = false) : IsWhole t := by
  have hnone : ∀ c ∈ t, c ≠ 46 ∧ c ≠ 101 ∧ c ≠ 69 := by
    intro c hc
    have hset : (ofString ".eE").contains c = false := by
      simpa using List.any_eq_false.mp hplain c hc
    refine ⟨?_, ?_, ?_⟩ <;> rintro rfl <;> cases hset
  cases hrest : t.dropWhile (isDigitMark isDigit) with
  | nil =>
    have hall := List.dropWhile_eq_nil_iff.mp hrest
    refine ⟨List.all_eq_true.mpr hall, fun hzero => ?_⟩
    rw [decimal?, mantissaParts_of_all hall] at h
    simp [hzero] at h
  | cons c r =>
    have hmem : c ∈ t := (List.dropWhile_sublist _).subset (hrest ▸ List.mem_cons_self)
    obtain ⟨hpoint, he, hE⟩ := hnone c hmem
    rw [decimal?, mantissaParts_of_dropWhile hpoint hrest] at h
    simp [he, hE] at h

/-- The exponent of a hexadecimal ends it, so that no fraction can follow. -/
theorem hexadecimal?_append_fraction {n : Numeral} (h : hexadecimal? negative t = some n)
    (hplain : 46 ∉ t) : hexadecimal? negative (t ++ ".0") = none := by
  cases hrest : t.dropWhile (isDigitMark isHexDigit) with
  | nil =>
    rw [hexadecimal?, mantissaParts_of_all (List.dropWhile_eq_nil_iff.mp hrest)] at h
    simp at h
  | cons c r =>
    have hpoint : c ≠ 46 := by
      rintro rfl
      exact hplain ((List.dropWhile_sublist _).subset (hrest ▸ List.mem_cons_self))
    have hexp : exponent? (r ++ ofString ".0") = none :=
      exponent?_eq_none_of_mem (List.mem_append_right r (by decide))
    rw [hexadecimal?, mantissaParts_append hpoint hrest]
    simp [hexp]

theorem exponent_mem_of_hexadecimal? {n : Numeral} (h : hexadecimal? negative t = some n) :
    112 ∈ t ∨ 80 ∈ t := by
  rw [hexadecimal?] at h
  have hsub := mantissaParts_rest_subset isHexDigit t
  rcases hparts : mantissaParts isHexDigit t with ⟨w, f, rest⟩
  rw [hparts] at h hsub
  cases rest with
  | nil => simp at h
  | cons c r =>
    have hc : c = 112 ∨ c = 80 := by
      by_contra hc
      simp [hc] at h
    have hmem : c ∈ t := hsub List.mem_cons_self
    rcases hc with rfl | rfl
    · exact .inl hmem
    · exact .inr hmem

end

/-! ## Separators -/

theorem separated_append_fraction {p : UInt8 → Bool} (hp : p 46 = false) (behind : Bool) (t : Text) :
    separated p behind (t ++ ".0") = separated p behind t := by
  have hend : ∀ b, separated p b (ofString ".0") = true := by
    intro b
    rfl
  fun_induction separated p behind t with
  | case1 b => exact hend b
  | case2 b r ih =>
    show (b && ((r ++ ofString ".0").head?.any p) && separated p false (r ++ ofString ".0")) = _
    rw [ih]
    cases r with
    | nil => simp [show (ofString ".0").head?.any p = p 46 from rfl, hp]
    | cons c r => rfl
  | case3 b c r hc ih =>
    rw [List.cons_append, separated.eq_3 _ _ _ _ hc, ih]

theorem separatorsOk_of_ne {c : UInt8} (hc : c ≠ 48) (r : Text) :
    separatorsOk (c :: r) = separated isDigit false (c :: r) := by
  rw [separatorsOk.eq_def]
  split
  next hcons => exact absurd (List.cons.inj hcons).1 hc
  next => rfl

theorem separatorsOk_append_fraction (t : Text) : separatorsOk (t ++ ".0") = separatorsOk t := by
  have hhex := separated_append_fraction (p := isHexDigit) rfl
  have hdec := separated_append_fraction (p := isDigit) rfl
  cases t with
  | nil => rfl
  | cons c r =>
    by_cases hc : c = 48
    · subst hc
      cases r with
      | nil => rfl
      | cons d r =>
        show (if d = 120 ∨ d = 88 then separated isHexDigit true (r ++ ofString ".0") else
          if d = 111 ∨ d = 79 ∨ d = 98 ∨ d = 66 then separated isDigit true (r ++ ofString ".0")
          else separated isDigit true ((d :: r) ++ ofString ".0")) = _
        rw [hhex, hdec, hdec]
        rfl
    · rw [List.cons_append, separatorsOk_of_ne hc, separatorsOk_of_ne hc, ← List.cons_append, hdec]

theorem separated_of_notMem {p : UInt8 → Bool} {t : Text} (h : 95 ∉ t) (behind : Bool) :
    separated p behind t = true := by
  fun_induction separated p behind t with
  | case1 => rfl
  | case2 b r ih => exact absurd List.mem_cons_self h
  | case3 b c r hc ih => exact ih fun hr => h (List.mem_cons_of_mem c hr)

theorem separatorsOk_of_notMem {t : Text} (h : 95 ∉ t) : separatorsOk t = true := by
  fun_cases separatorsOk t with
  | case1 c r hx =>
    exact separated_of_notMem (fun hr => h (by simp [hr])) true
  | case2 c r hx hb => exact separated_of_notMem (fun hr => h (by simp [hr])) true
  | case3 c r hx hb => exact separated_of_notMem (fun hr => h (List.mem_cons_of_mem 48 hr)) true
  | case4 t ht => exact separated_of_notMem h false

/-! ## Finite numbers -/

section

variable {t : Text} {negative : Bool}

theorem finite?_hexadecimal {x : UInt8} (hx : x = 120 ∨ x = 88) {r : Text} (hr : r ≠ []) :
    finite? negative (48 :: x :: r) =
      if separatorsOk (48 :: x :: r) then hexadecimal? negative r else none := by
  obtain ⟨c, s, rfl⟩ := List.exists_cons_of_ne_nil hr
  rw [finite?.eq_def]
  rcases hx with rfl | rfl
  · cases separatorsOk (48 :: 120 :: c :: s) <;> rfl
  · cases separatorsOk (48 :: 88 :: c :: s) <;> rfl

theorem finite?_decimal (h : ∀ x r, t = 48 :: x :: r → ¬ (x = 120 ∨ x = 88)) :
    finite? negative t = if separatorsOk t then decimal? negative t else none := by
  rw [finite?.eq_def]
  cases separatorsOk t with
  | false => rfl
  | true =>
    rw [if_neg (by decide)]
    split
    next c r => exact absurd (.inl rfl) (h 120 (c :: r) rfl)
    next c r => exact absurd (.inr rfl) (h 88 (c :: r) rfl)
    next => rfl

/-- A finite number is a hexadecimal behind its base, or a decimal. -/
theorem finite?_cases {n : Numeral} (h : finite? negative t = some n) :
    (∃ x r, (x = 120 ∨ x = 88) ∧ r ≠ [] ∧ t = 48 :: x :: r ∧ hexadecimal? negative r = some n) ∨
      decimal? negative t = some n := by
  rw [finite?.eq_def] at h
  split at h
  · cases h
  · split at h
    next c r _ => exact .inl ⟨120, c :: r, .inl rfl, List.cons_ne_nil c r, rfl, h⟩
    next c r _ => exact .inl ⟨88, c :: r, .inr rfl, List.cons_ne_nil c r, rfl, h⟩
    next => exact .inr h

theorem separatorsOk_of_finite? {n : Numeral} (h : finite? negative t = some n) :
    separatorsOk t = true := by
  rw [finite?.eq_def] at h
  split at h
  next => cases h
  next hsep => exact Decidable.not_not.mp hsep

theorem finite?_whole (h : IsWhole t) (hsep : separatorsOk t = true) :
    finite? negative t = some (.finite negative (magnitude 10 t) 10 0) := by
  rw [finite?_decimal, hsep, if_pos rfl, decimal?_whole negative h]
  rintro x r rfl hx
  have hmark := h.mark x (by simp)
  rcases hx with rfl | rfl <;> cases hmark

theorem finite?_whole_point (h : IsWhole t) (hsep : separatorsOk t = true) :
    finite? negative (t ++ ".0") = some (.finite negative (magnitude 10 t * 10) 10 (-1)) := by
  rw [finite?_decimal, separatorsOk_append_fraction, hsep, if_pos rfl,
    decimal?_whole_point negative h]
  intro x r ht hx
  have hmem : x ∈ t ++ ofString ".0" := by simp [ht]
  rcases List.mem_append.mp hmem with hmem | hmem
  · have hmark := h.mark x hmem
    rcases hx with rfl | rfl <;> cases hmark
  · have hletter : (ofString ".0").all (fun x => x != 120 && x != 88) = true := by decide
    have hne := List.all_eq_true.mp hletter x hmem
    rcases hx with rfl | rfl <;> cases hne

/-- Behind a finite number without a point and an exponent, a fraction is read if the number is
whole. -/
theorem finite?_append_fraction {n : Numeral} (h : finite? negative t = some n)
    (hplain : hasAny ".eE" t = false) :
    (IsWhole t ∧ n = .finite negative (magnitude 10 t) 10 0 ∧
      finite? negative (t ++ ".0") = some (.finite negative (magnitude 10 t * 10) 10 (-1))) ∨
    (¬ IsWhole t ∧ finite? negative (t ++ ".0") = none) := by
  have hsep := separatorsOk_of_finite? h
  rcases finite?_cases h with ⟨x, r, hx, hr, rfl, hhex⟩ | hdec
  · have hwhole : ¬ IsWhole (48 :: x :: r) := by
      intro hwhole
      have hmark := hwhole.mark x (by simp)
      rcases hx with rfl | rfl <;> cases hmark
    have hpoint : 46 ∉ r := by
      intro hmem
      exact absurd (List.any_eq_false.mp hplain 46 (by simp [hmem])) (by decide)
    refine .inr ⟨hwhole, ?_⟩
    show finite? negative (48 :: x :: (r ++ ofString ".0")) = none
    rw [finite?_hexadecimal hx (by simp [hr]), hexadecimal?_append_fraction negative hhex hpoint]
    exact ite_self none
  · have hwhole := isWhole_of_decimal? negative hdec hplain
    rw [decimal?_whole negative hwhole] at hdec
    exact .inl ⟨hwhole, (Option.some.inj hdec).symm, finite?_whole_point hwhole hsep⟩

end

/-! ## Numerals -/

theorem unsigned_append_fraction (t : Text) :
    unsigned (t ++ ".0") = unsigned t ++ ofString ".0" := by
  cases t with
  | nil => rfl
  | cons c r =>
    by_cases hplus : c = 43
    · subst hplus
      rfl
    by_cases hminus : c = 45
    · subst hminus
      rfl
    simp [unsigned, hplus, hminus]

theorem isNegative_append_fraction (t : Text) : isNegative (t ++ ".0") = isNegative t := by
  cases t <;> rfl

theorem mem_of_mem_unsigned {t : Text} {c : UInt8} (h : c ∈ unsigned t) : c ∈ t := by
  rw [unsigned.eq_def] at h
  split at h
  · exact List.mem_cons_of_mem _ h
  · exact List.mem_cons_of_mem _ h
  · exact h

theorem mem_unsigned {t : Text} {c : UInt8} (h : c ∈ t) (hplus : c ≠ 43) (hminus : c ≠ 45) :
    c ∈ unsigned t := by
  rw [unsigned.eq_def]
  split
  · exact (List.mem_cons.mp h).resolve_left hplus
  · exact (List.mem_cons.mp h).resolve_left hminus
  · exact h

/-- What is not a word behind its sign is read as a finite number. -/
theorem ofText?_number {t : Text} (h : isWord (unsigned t) = false) :
    ofText? t = finite? (isNegative t) (unsigned t) := by
  have hnan : (asciiLower t == ofString "nan") = false := by
    rw [Bool.eq_false_iff]
    intro hnan
    obtain ⟨c, r, rfl, hc⟩ := head_of_isWord (t := t) (by simp [isWord, hnan])
    have hsame : unsigned (c :: r) = c :: r := by rcases hc with rfl | rfl | rfl | rfl <;> rfl
    rw [hsame, isWord, hnan] at h
    cases h
  have hinf : isInfinityWord (unsigned t) = false := (Bool.or_eq_false_iff.mp h).2
  rw [ofText?_eq, hnan, ofText?.signed, hinf]
  rfl

theorem IsWhole.not_isWord {t : Text} (h : IsWhole t) : isWord t = false := by
  rw [Bool.eq_false_iff]
  intro hword
  obtain ⟨c, r, rfl, hc⟩ := head_of_isWord hword
  have hmark := h.mark c List.mem_cons_self
  rcases hc with rfl | rfl | rfl | rfl <;> cases hmark

/-- A point ends every word, and behind a word nothing else is read. -/
theorem finite?_word_append {t : Text} (h : isWord t = true) (negative : Bool) (u : Text) :
    finite? negative (t ++ u) = none := by
  obtain ⟨c, r, rfl, hc⟩ := head_of_isWord h
  have hmark : isDigitMark isDigit c = false ∧ c ≠ 46 ∧ c ≠ 48 := by
    rcases hc with rfl | rfl | rfl | rfl <;> decide
  have hparts : mantissaParts isDigit (c :: (r ++ u)) = ([], [], c :: (r ++ u)) := by
    have hdrop : (c :: (r ++ u)).dropWhile (isDigitMark isDigit) = c :: (r ++ u) := by
      rw [List.dropWhile_cons, hmark.1]
      rfl
    rw [mantissaParts_of_dropWhile hmark.2.1 hdrop, List.takeWhile_cons, hmark.1]
    rfl
  have hdec : decimal? negative (c :: (r ++ u)) = none := by
    rw [decimal?, hparts]
    rfl
  rw [List.cons_append, finite?_decimal, hdec]
  · exact ite_self none
  · intro x s hs
    exact absurd (List.cons.inj hs).1 hmark.2.2

/-- Behind a numeral without a point and an exponent, a fraction is read if the numeral is whole. -/
theorem ofText?_append_fraction {t : Text} {n : Numeral} (h : ofText? t = some n)
    (hplain : hasAny ".eE" t = false) :
    (IsWhole (unsigned t) ∧ n = .finite (isNegative t) (magnitude 10 (unsigned t)) 10 0 ∧
      ofText? (t ++ ".0") =
        some (.finite (isNegative t) (magnitude 10 (unsigned t) * 10) 10 (-1))) ∨
    (¬ IsWhole (unsigned t) ∧ ofText? (t ++ ".0") = none) := by
  have hfraction : ofText? (t ++ ".0") = finite? (isNegative t) (unsigned t ++ ".0") := by
    rw [ofText?_number, unsigned_append_fraction, isNegative_append_fraction]
    rw [unsigned_append_fraction]
    obtain ⟨hnan, hinf⟩ := not_word_of_mem (t := unsigned t ++ ofString ".0")
      (List.mem_append_right _ (by decide))
    rw [isWord, hnan, hinf]
    rfl
  rw [hfraction]
  by_cases hword : isWord (unsigned t) = true
  · refine .inr ⟨fun hwhole => ?_, finite?_word_append hword _ _⟩
    rw [hwhole.not_isWord] at hword
    cases hword
  · rw [ofText?_number (Bool.eq_false_iff.mpr hword)] at h
    refine finite?_append_fraction h (List.any_eq_false.mpr fun c hc => ?_)
    exact List.any_eq_false.mp hplain c (mem_of_mem_unsigned hc)

end Numeral

end Assembly
