import Assembly.Proofs.Machine.Width

/-!
# Size rules

Which names have a size is said by rules: a few names by themselves, the floating names, and the
names of integers with a width in bits at their end, whatever its leading zeros.  `SizeRule` states
them without an order in which they are tried, and `knownSize?_eq_some_iff` says that they are the
rules of the policy.  The size of a type, the directive for its data and the size of its operands
agree for every name, and only the names that stand for a word depend on the target: `sizes_agree`.
-/

namespace Assembly

namespace TypePolicy

/-! ## Widths at the end of a name -/

/-- The digits at the end of a name denote a number. -/
def Declares (type : Text) (n : Nat) : Prop :=
  ∃ front digits : Text, type = front ++ digits ∧ digits ≠ [] ∧ digits.all Text.isDigit ∧
    front.getLast?.all (!Text.isDigit ·) ∧ Text.digitsValue digits = n

theorem trailingDigits_append {front digits : Text} (hdigits : digits.all Text.isDigit)
    (hfront : front.getLast?.all (!Text.isDigit ·)) :
    trailingDigits (front ++ digits) = digits := by
  have hstop : front.reverse.takeWhile Text.isDigit = [] := by
    rw [← List.head?_reverse] at hfront
    cases hrev : front.reverse with
    | nil => rfl
    | cons c r =>
      rw [hrev] at hfront
      have hc : Text.isDigit c = false := by simpa using hfront
      rw [List.takeWhile_cons, hc]
      rfl
  rw [trailingDigits, List.reverse_append, List.takeWhile_append_of_pos, hstop, List.append_nil,
    List.reverse_reverse]
  simpa using hdigits

theorem exists_append_trailingDigits (type : Text) : ∃ front,
    type = front ++ trailingDigits type ∧ (trailingDigits type).all Text.isDigit ∧
      front.getLast?.all (!Text.isDigit ·) := by
  refine ⟨(type.reverse.dropWhile Text.isDigit).reverse, ?_, ?_, ?_⟩
  · rw [trailingDigits, ← List.reverse_append, List.takeWhile_append_dropWhile,
      List.reverse_reverse]
  · rw [trailingDigits, List.all_reverse]
    exact List.all_takeWhile
  · rw [List.getLast?_reverse]
    have hstop := List.head?_dropWhile_not Text.isDigit type.reverse
    cases h : (type.reverse.dropWhile Text.isDigit).head? with
    | none => rfl
    | some c =>
      rw [h] at hstop
      simpa using hstop

theorem declares_iff {type : Text} {n : Nat} :
    Declares type n ↔ trailingDigits type ≠ [] ∧ Text.digitsValue (trailingDigits type) = n := by
  constructor
  · rintro ⟨front, digits, rfl, hne, hdigits, hfront, hvalue⟩
    rw [trailingDigits_append hdigits hfront]
    exact ⟨hne, hvalue⟩
  · rintro ⟨hne, hvalue⟩
    obtain ⟨front, htype, hdigits, hfront⟩ := exists_append_trailingDigits type
    exact ⟨front, _, htype, hne, hdigits, hfront, hvalue⟩

theorem declaredSize?_eq_some_iff {type : Text} {n : Nat} :
    declaredSize? type = some n ↔ n ∈ [1, 2, 4, 8] ∧ Declares type (8 * n) := by
  rw [declares_iff, declaredSize?]
  split
  case h_1 hnone => simp [hnone]
  case h_2 hne =>
    generalize Text.digitsValue (trailingDigits type) = value
    constructor
    · intro h
      refine ⟨?_, hne, ?_⟩ <;> split at h <;> cases h <;> decide
    · rintro ⟨hn, -, hvalue⟩
      simp only [List.mem_cons, List.not_mem_nil, or_false] at hn
      rcases hn with rfl | rfl | rfl | rfl <;> subst hvalue <;> rfl

/-! ## Rules -/

/-- The size of a name, by the rule that it falls under. -/
inductive SizeRule (t : Target) : Text → Nat → Prop
  | single : SizeRule t "float" 4
  | byte {type : Text} (h : type ∈ [Text.ofString "bool", Text.ofString "char"]) :
    SizeRule t type 1
  | address {type : Text} (h : type ∈ [Text.ofString "str", Text.ofString "ptr"]) :
    SizeRule t type t.wordSize
  | narrow {type : Text} (hfloat : isFloat type) (hbits : Declares type 32) : SizeRule t type 4
  | wide {type : Text} (hfloat : isFloat type) (hsingle : type ≠ "float")
    (hbits : ¬Declares type 32) : SizeRule t type 8
  | whole {type : Text} {n : Nat} (hfloat : isFloat type = false)
    (hint : Text.includes "int" type) (hn : n ∈ [1, 2, 4, 8]) (hbits : Declares type (8 * n)) :
    SizeRule t type n

end TypePolicy

namespace Target

open TypePolicy

variable {t : Target} {type : Text} {n : Nat}

theorem knownSize?_of_int (hfloat : isFloat type = false) (hint : Text.includes "int" type) :
    t.knownSize? type = declaredSize? type := by
  have hother (name : Text) (h : Text.includes "int" name = false) : (type == name) = false :=
    Text.beq_eq_false_of_apply (Text.includes "int") hint h
  rw [knownSize?, hother _ (by decide : Text.includes "int" "float" = false),
    hother _ (by decide : Text.includes "int" "double" = false),
    hother _ (by decide : Text.includes "int" "str" = false),
    hother _ (by decide : Text.includes "int" "ptr" = false),
    hother _ (by decide : Text.includes "int" "bool" = false),
    hother _ (by decide : Text.includes "int" "char" = false), hfloat, hint]
  rfl

theorem knownSize?_of_sizeRule (h : SizeRule t type n) : t.knownSize? type = some n := by
  cases h with
  | single => rfl
  | byte h =>
    simp only [List.mem_cons, List.not_mem_nil, or_false] at h
    rcases h with rfl | rfl <;> rfl
  | address h =>
    simp only [List.mem_cons, List.not_mem_nil, or_false] at h
    rcases h with rfl | rfl <;> rfl
  | narrow hfloat hbits =>
    -- The only other rule of size 4 is that of the name without a width.
    by_cases hsingle : type = Text.ofString "float"
    · rw [hsingle]
      rfl
    · have hsize : declaredSize? type = some 4 := declaredSize?_eq_some_iff.mpr ⟨by decide, hbits⟩
      rw [t.knownSize?_of_isFloat hfloat hsingle, if_pos hsize]
  | wide hfloat hsingle hbits =>
    rw [t.knownSize?_of_isFloat hfloat hsingle,
      if_neg fun hsize => hbits (declaredSize?_eq_some_iff.mp hsize).2]
  | whole hfloat hint hn hbits =>
    rw [knownSize?_of_int hfloat hint]
    exact declaredSize?_eq_some_iff.mpr ⟨hn, hbits⟩

theorem sizeRule_of_isFloat (hfloat : isFloat type) (h : t.knownSize? type = some n) :
    SizeRule t type n := by
  by_cases hsingle : type = Text.ofString "float"
  · subst hsingle
    obtain rfl : 4 = n := Option.some.inj h
    exact .single
  rw [t.knownSize?_of_isFloat hfloat hsingle] at h
  by_cases hsize : declaredSize? type = some 4
  · rw [if_pos hsize] at h
    obtain rfl : 4 = n := Option.some.inj h
    exact .narrow hfloat (declaredSize?_eq_some_iff.mp hsize).2
  · rw [if_neg hsize] at h
    obtain rfl : 8 = n := Option.some.inj h
    exact .wide hfloat hsingle fun hbits =>
      hsize (declaredSize?_eq_some_iff.mpr ⟨by decide, hbits⟩)

theorem sizeRule_of_not_isFloat (hfloat : isFloat type = false)
    (h : t.knownSize? type = some n) : SizeRule t type n := by
  have hnamed (name : Text) (hname : isFloat name) : ¬(type == name) = true := fun heq => by
    cases (eq_of_beq heq ▸ hfloat).symm.trans hname
  rw [knownSize?, if_neg (hnamed _ (by decide)), if_neg (hnamed _ (by decide))] at h
  split at h
  case isTrue heq =>
    obtain rfl : t.wordSize = n := Option.some.inj h
    exact .address (by simpa using heq)
  split at h
  case isTrue heq =>
    obtain rfl : 1 = n := Option.some.inj h
    exact .byte (by simpa using heq)
  rw [hfloat, if_neg Bool.false_ne_true] at h
  split at h
  case isTrue hint =>
    obtain ⟨hn, hbits⟩ := declaredSize?_eq_some_iff.mp h
    exact .whole hfloat hint hn hbits
  case isFalse => cases h

theorem knownSize?_eq_some_iff : t.knownSize? type = some n ↔ SizeRule t type n := by
  refine ⟨fun h => ?_, knownSize?_of_sizeRule⟩
  cases hfloat : isFloat type with
  | true => exact sizeRule_of_isFloat hfloat h
  | false => exact sizeRule_of_not_isFloat hfloat h

theorem knows_iff : t.knows type = true ↔ ∃ n, SizeRule t type n := by
  simp only [knows, Option.isSome_iff_exists, knownSize?_eq_some_iff]

/-! ## Targets -/

/-- Only the rule for addresses looks at the target. -/
theorem sizeRule_congr (hstr : type ≠ "str") (hptr : type ≠ "ptr") (t' : Target)
    (h : SizeRule t type n) : SizeRule t' type n := by
  cases h with
  | single => exact .single
  | byte h => exact .byte h
  | address h =>
    simp only [List.mem_cons, List.not_mem_nil, or_false] at h
    exact absurd h (not_or.mpr ⟨hstr, hptr⟩)
  | narrow hfloat hbits => exact .narrow hfloat hbits
  | wide hfloat hsingle hbits => exact .wide hfloat hsingle hbits
  | whole hfloat hint hn hbits => exact .whole hfloat hint hn hbits

theorem typeSize_of_sizeRule (h : SizeRule t type n) : t.typeSize type = n := by
  rw [typeSize, knownSize?_of_sizeRule h]
  rfl

theorem typeSize_of_not_knows (h : t.knows type = false) : t.typeSize type = t.wordSize := by
  rw [knows, Option.isSome_eq_false_iff, Option.isNone_iff_eq_none] at h
  rw [typeSize, h]
  rfl

theorem knows_congr (t t' : Target) (type : Text) : t.knows type = t'.knows type := by
  by_cases hword : type = Text.ofString "str" ∨ type = Text.ofString "ptr"
  · have hknows (t : Target) : t.knows type = true :=
      knows_iff.mpr ⟨_, .address (by simpa using hword)⟩
    rw [hknows t, hknows t']
  · obtain ⟨hstr, hptr⟩ := not_or.mp hword
    rw [Bool.eq_iff_iff, knows_iff, knows_iff]
    exact exists_congr fun n =>
      ⟨sizeRule_congr hstr hptr t', sizeRule_congr hstr hptr t⟩

/-- The names whose size is the same on every target. -/
theorem typeSize_fixed_iff :
    (∀ t' : Target, t'.typeSize type = t.typeSize type) ↔
      type ≠ "str" ∧ type ≠ "ptr" ∧ t.knows type = true := by
  constructor
  · intro hfixed
    have hword : ¬∀ t' : Target, t'.typeSize type = t'.wordSize := by
      intro hword
      have h16 := (hword .bits16).symm.trans (hfixed .bits16)
      have h64 := (hword .bits64).symm.trans (hfixed .bits64)
      cases h16.trans h64.symm
    refine ⟨fun hstr => hword fun t' => ?_, fun hptr => hword fun t' => ?_, ?_⟩
    · exact typeSize_of_sizeRule (.address (by simp [hstr]))
    · exact typeSize_of_sizeRule (.address (by simp [hptr]))
    · cases hknows : t.knows type with
      | true => rfl
      | false =>
        exact absurd (fun t' => typeSize_of_not_knows ((knows_congr t' t type).trans hknows)) hword
  · rintro ⟨hstr, hptr, hknows⟩ t'
    obtain ⟨n, hrule⟩ := knows_iff.mp hknows
    rw [typeSize_of_sizeRule hrule, typeSize_of_sizeRule (sizeRule_congr hstr hptr t' hrule)]

/-! ## Agreement -/

/-- Data have units of the size of their type, but for texts: these are stored by bytes and passed
by address.  The table of directives and that of sizes agree, each with its own word. -/
theorem unit_directive (hstr : type ≠ "str") : (t.directive type).unit = t.typeSize type := by
  have hcases := t.typeSize_cases type
  rw [directive.eq_def, if_neg (by simpa using hstr)]
  rw [typeSize] at hcases ⊢
  cases hknown : t.knownSize? type with
  | none => cases t <;> rfl
  | some n =>
    rw [hknown, Option.getD_some] at hcases
    rcases hcases with rfl | rfl | rfl | rfl <;> rfl

theorem dataUnit?_directive (hstr : type ≠ "str") :
    dataUnit? (t.directive type).text = some (t.typeSize type) := by
  rw [dataUnit?_text, unit_directive hstr]

theorem operandBytes?_operandSize (t : Target) (type : Text) :
    operandBytes? (t.operandSize (t.typeSize type)).text = some (t.typeSize type) := by
  rw [operandBytes?_text, t.bytes_operandSize (t.typeSize_cases type)]

/-- Every name has a size that operands can have, a floating one that of a floating operand, and
known names have theirs by the rules.  The word of the directive for data and the keyword for
operands are read as the same size.  An unknown name stands for a word, on every target, and with
`str` and `ptr` the unknown names are all whose size depends on the target. -/
theorem sizes_agree (t : Target) (type : Text) :
    t.typeSize type ∈ [1, 2, 4, 8] ∧
    (isFloat type = true → t.typeSize type ∈ [4, 8]) ∧
    (∀ n, t.knownSize? type = some n ↔ SizeRule t type n) ∧
    (t.knows type = false → t.typeSize type = t.wordSize) ∧
    (type ≠ "str" → dataUnit? (t.directive type).text = some (t.typeSize type)) ∧
    operandBytes? (t.operandSize (t.typeSize type)).text = some (t.typeSize type) ∧
    (∀ t' : Target, t'.knows type = t.knows type) ∧
    ((∀ t' : Target, t'.typeSize type = t.typeSize type) ↔
      type ≠ "str" ∧ type ≠ "ptr" ∧ t.knows type = true) := by
  refine ⟨?_, fun hfloat => ?_, fun n => knownSize?_eq_some_iff, typeSize_of_not_knows,
    dataUnit?_directive, operandBytes?_operandSize t type, fun t' => knows_congr t' t type,
    typeSize_fixed_iff⟩
  · simpa using t.typeSize_cases type
  · simpa using t.typeSize_of_isFloat hfloat

-- A floating name is never an integer's, and a width keeps its value behind leading zeros.
example : Target.typeSize .bits16 "intdouble032" = 4 ∧ Target.typeSize .bits16 "float16" = 8 ∧
    Target.typeSize .bits32 "point0064" = 8 ∧ Target.knows .bits32 "int128" = false := by decide

end Target

end Assembly
