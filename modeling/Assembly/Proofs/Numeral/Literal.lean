import Mathlib.Data.List.Basic
import Assembly.Proofs.Numeral.Notation

/-!
# Number literals

A literal is accepted if its text is a numeral in range.  It is an integer if it is a whole number
without underscores that fits a signed word, and floating otherwise, whatever its spelling.  A
floating constant is stored with a point or an exponent, and is read back as the number it was if
it had one or is whole; every other literal is stored as a text that is no numeral.
-/

namespace Assembly

open Text Numeral

/-- An integer that fits a signed word of 64 bits. -/
def Quantity.isInt64 : Quantity → Bool
  | .finite negative m =>
    m.den = 1 && (if negative then m.num ≤ 0x8000000000000000 else m.num < 0x8000000000000000)
  | _ => false

/-! ## Integers -/

theorem toInt?_eq (t : Text) : toInt? t =
    if unsigned t ≠ [] ∧ (unsigned t).all isDigit then
      some (if isNegative t then -(digitsValue (unsigned t) : Int) else digitsValue (unsigned t))
    else none := by
  cases t with
  | nil => rfl
  | cons c r =>
    by_cases hplus : c = 43
    · subst hplus
      rfl
    by_cases hminus : c = 45
    · subst hminus
      show (if r ≠ [] ∧ r.all isDigit then some (digitsValue r : Int) else none).map (- ·) =
        if r ≠ [] ∧ r.all isDigit then some (-(digitsValue r : Int)) else none
      split <;> rfl
    simp [toInt?, toInt?.unsigned, unsigned, isNegative, hplus, hminus]

theorem magnitude_digits {t : Text} (h : t.all isDigit) : magnitude 10 t = digitsValue t := by
  have hdigit : ∀ c ∈ t, (c != 95) = true ∧ (hexValue? c.toNat).getD 0 = digitValue c := by
    intro c hc
    have hd := List.all_eq_true.mp h c hc
    simp only [isDigit, Bool.and_eq_true, decide_eq_true_eq, UInt8.le_iff_toNat_le] at hd
    have hrange : 48 ≤ c.toNat ∧ c.toNat ≤ 57 := hd
    refine ⟨?_, ?_⟩
    · rw [bne_iff_ne]
      rintro rfl
      exact absurd hd (by decide)
    · rw [hexValue?, if_pos hrange]
      rfl
  rw [magnitude, digitsValue, List.filter_eq_self.mpr fun c hc => (hdigit c hc).1]
  exact List.foldl_ext _ _ 0 fun n c hc => by rw [(hdigit c hc).2]

theorem isWhole_iff_digits {t : Text} (h : 95 ∉ t) : IsWhole t ↔ t ≠ [] ∧ t.all isDigit := by
  have hfilter : t.filter (· != 95) = t :=
    List.filter_eq_self.mpr fun c hc => bne_iff_ne.mpr fun heq => h (heq ▸ hc)
  have hcount : digitCount t ≠ 0 ↔ t ≠ [] := by
    rw [digitCount, hfilter, Ne, List.length_eq_zero_iff]
  rw [IsWhole, hcount, and_comm, List.all_eq_true, List.all_eq_true]
  refine and_congr_right fun _ => forall₂_congr fun c hc => ?_
  have hne : (c == 95) = false := beq_eq_false_iff_ne.mpr fun heq => h (heq ▸ hc)
  rw [isDigitMark, hne, Bool.or_false]

theorem ofText?_whole {t : Text} (h : IsWhole (unsigned t))
    (hsep : separatorsOk (unsigned t) = true) :
    ofText? t = some (.finite (isNegative t) (magnitude 10 (unsigned t)) 10 0) := by
  rw [ofText?_number h.not_isWord, finite?_whole h hsep]

@[simp] theorem isInt64_whole (negative : Bool) (m : Nat) :
    (Numeral.finite negative m 10 0).quantity.isInt64 =
      if negative then decide (m ≤ 0x8000000000000000) else decide (m < 0x8000000000000000) := by
  have hvalue : mkRat (m * Nat.pow 10 0 : Nat) 1 = (m : Int) := by
    rw [Rat.mkRat_one]
    simp
  show Quantity.isInt64 (.finite negative (mkRat (m * Nat.pow 10 0 : Nat) 1)) = _
  rw [hvalue]
  have hden : ((m : Int) : Rat).den = 1 := rfl
  have hnum : ((m : Int) : Rat).num = m := rfl
  rw [Quantity.isInt64, hden, hnum, decide_eq_true rfl, Bool.true_and]
  cases negative with
  | false =>
    simp only [Bool.false_eq_true, if_false]
    exact decide_eq_decide.mpr (by omega)
  | true =>
    simp only [if_true]
    exact decide_eq_decide.mpr (by omega)

theorem isBelow_zero (m radix bound : Nat) : isBelow m radix 0 bound = decide (m < bound) := by
  show decide (m * Nat.pow radix 0 < bound) = decide (m < bound)
  rw [show Nat.pow radix 0 = 1 from rfl, Nat.mul_one]

theorem inRange_of_isInt64 {negative : Bool} {m : Nat}
    (h : (Numeral.finite negative m 10 0).quantity.isInt64) :
    (Numeral.finite negative m 10 0).inRange := by
  have hbound : 0x8000000000000000 < overflowBound := by decide +kernel
  rw [isInt64_whole] at h
  have hle : m ≤ 0x8000000000000000 := by
    split at h
    · exact of_decide_eq_true h
    · exact Nat.le_of_lt (of_decide_eq_true h)
  rw [inRange, isBelow_zero]
  exact decide_eq_true (Nat.lt_of_le_of_lt hle hbound)

theorem notMem_of_digits {t : Text} (h : (unsigned t).all isDigit) : 95 ∉ t := by
  have hdigits : 95 ∉ unsigned t := fun hmem => absurd (List.all_eq_true.mp h 95 hmem) (by decide)
  rw [unsigned.eq_def] at hdigits
  split at hdigits
  · simpa using hdigits
  · simpa using hdigits
  · exact hdigits

/-- The integers that fit a word, by their spelling and by what they denote. -/
theorem isSome_toInt64?_iff {t : Text} : (toInt64? t).isSome ↔ 95 ∉ t ∧ IsWhole (unsigned t) ∧
    ∃ n, ofText? t = some n ∧ n.quantity.isInt64 := by
  have hdigits : unsigned t ≠ [] ∧ (unsigned t).all isDigit ↔ 95 ∉ t ∧ IsWhole (unsigned t) := by
    constructor
    · intro h
      have hnot := notMem_of_digits h.2
      exact ⟨hnot, (isWhole_iff_digits fun hmem => hnot (mem_of_mem_unsigned hmem)).mpr h⟩
    · rintro ⟨hnot, h⟩
      exact (isWhole_iff_digits fun hmem => hnot (mem_of_mem_unsigned hmem)).mp h
  rw [← and_assoc, ← hdigits, toInt64?, toInt?_eq]
  by_cases h : unsigned t ≠ [] ∧ (unsigned t).all isDigit
  · have hnot : 95 ∉ unsigned t := fun hmem => (hdigits.mp h).1 (mem_of_mem_unsigned hmem)
    have hread := ofText?_whole (hdigits.mp h).2 (separatorsOk_of_notMem hnot)
    rw [magnitude_digits h.2] at hread
    rw [if_pos h, and_iff_right h, hread, Option.isSome_filter]
    simp only [Option.any_some, Option.some.injEq, exists_eq_left', isInt64_whole]
    cases isNegative t with
    | false =>
      simp only [Bool.false_eq_true, if_false, decide_eq_true_eq]
      omega
    | true =>
      simp only [if_true, decide_eq_true_eq]
      omega
  · rw [if_neg h]
    exact iff_of_false (by decide) fun hand => h hand.1

/-! ## Literals -/

/-- What is accepted as a literal, and the type that it gets. -/
theorem ofNumeral?_eq_some_iff {t : Text} {v : Value} : Value.ofNumeral? t = some v ↔
    ∃ n, ofText? t = some n ∧ n.inRange ∧
      v = { kind := .number, text := t, type := if (toInt64? t).isSome then "int64" else "float" } := by
  by_cases hword : (toInt64? t).isSome
  · obtain ⟨hnot, hwhole, n, hread, hint⟩ := isSome_toInt64?_iff.mp hword
    have hsep := separatorsOk_of_notMem fun hmem => hnot (mem_of_mem_unsigned hmem)
    obtain rfl := Option.some.inj (hread.symm.trans (ofText?_whole hwhole hsep))
    have hrange := inRange_of_isInt64 hint
    rw [Value.ofNumeral?, if_pos hword, if_pos hword]
    constructor
    · intro h
      exact ⟨_, hread, hrange, (Option.some.inj h).symm⟩
    · rintro ⟨_, _, _, rfl⟩
      rfl
  · rw [Value.ofNumeral?, if_neg hword, if_neg hword]
    cases hread : ofText? t with
    | none => simp
    | some n =>
      simp only [Option.some.injEq, exists_eq_left']
      split
      next hrange =>
        rw [and_iff_right hrange, Option.some.injEq]
        exact eq_comm
      next hrange => exact iff_of_false (by simp) fun h => hrange h.1

/-- Bytes that are in no whole number, the sign included. -/
def isForeign (c : UInt8) : Bool := !isDigitMark isDigit c && c != 43 && c != 45

theorem hasAny_of_isWhole {t : Text} (set : Text) (hset : set.all isForeign = true)
    (h : IsWhole (unsigned t)) : hasAny set t = false := by
  rw [hasAny, List.any_eq_false]
  intro c hc hmem
  have hforeign := List.all_eq_true.mp hset c (List.contains_iff_mem.mp hmem)
  simp only [isForeign, Bool.and_eq_true, Bool.not_eq_true', bne_iff_ne] at hforeign
  obtain ⟨⟨hmark, hplus⟩, hminus⟩ := hforeign
  rw [h.mark c (mem_unsigned hc hplus hminus)] at hmark
  cases hmark

theorem isSome_toInt64?_of_hasAny {t : Text} (set : Text) (hset : set.all isForeign = true)
    (h : hasAny set t = true) : (toInt64? t).isSome = false := by
  rw [Bool.eq_false_iff]
  intro hsome
  obtain ⟨-, hwhole, -⟩ := isSome_toInt64?_iff.mp hsome
  rw [hasAny_of_isWhole set hset hwhole] at h
  cases h

/-! ## Types by spelling -/

/-- The type that a spelling suggests: floating if it has a point or an exponent. -/
def spelledType (t : Text) : Text := if hasAny ".eEpP" t then "float" else "int64"

/-- Text that denotes an integer of a signed word, and has no underscores. -/
def IsMachineInteger (t : Text) : Prop := 95 ∉ t ∧ ∃ n, ofText? t = some n ∧ n.quantity.isInt64

theorem isInt64_of_isWord {t : Text} {n : Numeral} (h : ofText? t = some n)
    (hword : isWord (unsigned t) = true) : n.quantity.isInt64 = false := by
  have hfinite := finite?_word_append hword (isNegative t) []
  rw [List.append_nil] at hfinite
  rw [ofText?_eq, ofText?.signed, hfinite] at h
  split at h
  · cases h
    rfl
  · split at h
    · cases h
      rfl
    · cases h

theorem isWhole_of_isInt64 {t : Text} {n : Numeral} (h : ofText? t = some n)
    (hint : n.quantity.isInt64 = true) (hplain : hasAny ".eEpP" t = false) :
    IsWhole (unsigned t) := by
  have hnone : ∀ c ∈ unsigned t, ¬ (ofString ".eEpP").contains c := fun c hc =>
    List.any_eq_false.mp hplain c (mem_of_mem_unsigned hc)
  have hword : isWord (unsigned t) = false := by
    rw [Bool.eq_false_iff]
    intro hword
    rw [isInt64_of_isWord h hword] at hint
    cases hint
  rw [ofText?_number hword] at h
  rcases finite?_cases h with ⟨x, r, -, -, hcons, hhex⟩ | hdec
  · rw [hcons] at hnone
    rcases exponent_mem_of_hexadecimal? _ hhex with hmem | hmem
    · exact absurd (by decide) (hnone 112 (by simp [hmem]))
    · exact absurd (by decide) (hnone 80 (by simp [hmem]))
  · refine isWhole_of_decimal? _ hdec (List.any_eq_false.mpr fun c hc hmem => hnone c hc ?_)
    have hsub : (ofString ".eE").all ((ofString ".eEpP").contains ·) = true := by decide
    exact List.all_eq_true.mp hsub c (List.contains_iff_mem.mp hmem)

theorem isSome_toInt64?_iff_spelling {t : Text} :
    (toInt64? t).isSome ↔ hasAny ".eEpP" t = false ∧ IsMachineInteger t := by
  constructor
  · intro h
    have hmark : hasAny ".eEpP" t = false := by
      rw [Bool.eq_false_iff]
      intro hmark
      rw [isSome_toInt64?_of_hasAny ".eEpP" (by decide) hmark] at h
      cases h
    obtain ⟨hnot, -, hread⟩ := isSome_toInt64?_iff.mp h
    exact ⟨hmark, hnot, hread⟩
  · rintro ⟨hmark, hnot, n, hread, hint⟩
    exact isSome_toInt64?_iff.mpr ⟨hnot, isWhole_of_isInt64 hread hint hmark, n, hread, hint⟩

/-- The type of a literal is what its spelling suggests, unless it is spelled as an integer and
either has underscores, or does not fit, or is no number. -/
theorem type_eq_spelledType_iff {t : Text} {v : Value} (h : Value.ofNumeral? t = some v) :
    (v.type = spelledType t ↔ hasAny ".eEpP" t ∨ IsMachineInteger t) ∧
    (v.type ≠ spelledType t → v.type = ofString "float") := by
  obtain ⟨n, -, -, rfl⟩ := ofNumeral?_eq_some_iff.mp h
  have hne : ofString "float" ≠ ofString "int64" := by decide
  by_cases hint : (toInt64? t).isSome = true
  · obtain ⟨hmark, hmachine⟩ := isSome_toInt64?_iff_spelling.mp hint
    rw [if_pos hint, spelledType, hmark]
    exact ⟨iff_of_true rfl (.inr hmachine), fun h => absurd rfl h⟩
  · rw [if_neg hint, spelledType]
    refine ⟨?_, fun _ => rfl⟩
    split
    next hmark => exact iff_of_true rfl (.inl hmark)
    next hmark =>
      refine iff_of_false hne ?_
      rintro (h | hmachine)
      · exact hmark h
      · exact hint (isSome_toInt64?_iff_spelling.mpr ⟨Bool.eq_false_iff.mpr hmark, hmachine⟩)

/-! ## Spellings of floating constants -/

/-- The second text is a floating literal that denotes what the first denotes. -/
def FloatReading (t u : Text) : Prop :=
  ∃ v m n, Value.ofNumeral? u = some v ∧ v.type = ofString "float" ∧
    ofText? t = some m ∧ ofText? u = some n ∧ n.quantity = m.quantity

/-- The exponents -1 and 0 of the two spellings of a whole number say the same. -/
theorem quantity_point (negative : Bool) (m : Nat) :
    (Numeral.finite negative (m * 10) 10 (-1)).quantity =
      (Numeral.finite negative m 10 0).quantity := by
  have hvalue : mkRat (m * 10 : Nat) (Nat.pow 10 1) = mkRat (m * Nat.pow 10 0 : Nat) 1 := by
    rw [Rat.mkRat_eq_iff (by decide) (by decide)]
    simp
  show Quantity.finite negative (mkRat (m * 10 : Nat) (Nat.pow 10 (0 + 1))) = _
  rw [hvalue]
  rfl

theorem inRange_point (negative : Bool) (m : Nat) :
    (Numeral.finite negative (m * 10) 10 (-1)).inRange =
      (Numeral.finite negative m 10 0).inRange := by
  have hbelow : ∀ bound, isBelow (m * 10) 10 (-1) bound = isBelow m 10 0 bound := by
    intro bound
    rw [isBelow_zero]
    show decide (m * 10 < bound * Nat.pow 10 1) = decide (m < bound)
    rw [show Nat.pow 10 1 = 10 from rfl, decide_eq_decide]
    omega
  exact hbelow overflowBound

section

variable {t : Text} {n : Numeral}

theorem floatReading_of_hasAny (h : ofText? t = some n) (hrange : n.inRange)
    (hmark : hasAny ".eE" t) : FloatReading t t := by
  have hint := isSome_toInt64?_of_hasAny ".eE" (by decide) hmark
  refine ⟨_, n, n, ofNumeral?_eq_some_iff.mpr ⟨n, h, hrange, rfl⟩, ?_, h, h, rfl⟩
  simp [hint]

theorem floatReading_of_isWhole (h : ofText? t = some n) (hrange : n.inRange)
    (hwhole : IsWhole (unsigned t)) (hplain : hasAny ".eE" t = false) :
    FloatReading t (t ++ ".0") := by
  obtain ⟨-, rfl, hread⟩ | ⟨hno, -⟩ := ofText?_append_fraction h hplain
  · have hmark : hasAny ".eE" (t ++ ofString ".0") = true :=
      List.any_eq_true.mpr ⟨46, List.mem_append_right t (by decide), by decide⟩
    have hint := isSome_toInt64?_of_hasAny ".eE" (by decide) hmark
    have hin := (inRange_point (isNegative t) (magnitude 10 (unsigned t))).trans hrange
    refine ⟨_, _, _, ofNumeral?_eq_some_iff.mpr ⟨_, hread, hin, rfl⟩, ?_, h, hread,
      quantity_point _ _⟩
    simp [hint]
  · exact absurd hwhole hno

/-- The spelling of a floating constant is read as the literal it came from if this has a point, an
exponent of the decimal base or digits only; otherwise nothing is read. -/
theorem floatSpelling_reading (h : ofText? t = some n) (hrange : n.inRange) :
    (hasAny ".eE" t ∨ IsWhole (unsigned t)) ∧ FloatReading t (floatSpelling t) ∨
    ¬ (hasAny ".eE" t ∨ IsWhole (unsigned t)) ∧ Value.ofNumeral? (floatSpelling t) = none := by
  by_cases hmark : hasAny ".eE" t = true
  · rw [floatSpelling, if_pos hmark]
    exact .inl ⟨.inl hmark, floatReading_of_hasAny h hrange hmark⟩
  rw [floatSpelling, if_neg hmark]
  by_cases hwhole : IsWhole (unsigned t)
  · exact .inl ⟨.inr hwhole, floatReading_of_isWhole h hrange hwhole (Bool.eq_false_iff.mpr hmark)⟩
  · obtain ⟨hyes, -⟩ | ⟨-, hnone⟩ := ofText?_append_fraction h (Bool.eq_false_iff.mpr hmark)
    · exact absurd hyes hwhole
    · refine .inr ⟨by simp [hmark, hwhole], ?_⟩
      rw [Option.eq_none_iff_forall_ne_some]
      intro v hv
      obtain ⟨m, hm, -⟩ := ofNumeral?_eq_some_iff.mp hv
      rw [hnone] at hm
      cases hm

end

end Assembly
