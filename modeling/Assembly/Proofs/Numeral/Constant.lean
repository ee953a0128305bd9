import Assembly.Proofs.Cast.Plain
import Assembly.Proofs.Numeral.Literal

/-!
# Floating constants

A number of a floating type is stored as a constant, by a declaration or because an instruction has
no floating immediates.  The constant holds the number's spelling with a point, an exponent, or else
a fraction of one zero.  `float_constant_reads_iff` says for which literals this spelling is again a
floating literal of the same value: those that have a point or a decimal exponent, and the whole
numbers, with or without underscores.  For the words and for a hexadecimal without a point and
without the digit `e` it is no number at all.
-/

namespace Assembly

open Text Numeral Emit

/-- The type that a constant gets: the one that is asked for, or the literal's own. -/
def Target.constantType (t : Target) (lit : Value) (type : Text) : Text :=
  if type.isEmpty then literalType t lit else type

variable {e : Engine} {ms : List Move} {a v : Value} {name type : Text}

theorem claimSymbol_stock {u : Unit} (h : (claimSymbol name).Grants e u ms) :
    (e.makeAll ms).stock = e.stock := by
  have hms : (claimSymbol name e).2 = ms := congrArg Prod.snd h
  rw [← hms, claimSymbol_run, Engine.makeAll_stock]
  split
  · split <;> rfl
  · rfl

/-- A constant that is declared is one more datum, and nothing else is stored. -/
theorem declareConst_stores (h : (declareConst name v type).Grants e a ms) :
    e.Stores (e.makeAll ms) [⟨name, e.target.directive (e.target.constantType v type),
      literalContent v (e.target.constantType v type)⟩] := by
  simp only [declareConst, grants_ite, grants_throw_bind, grants_read_bind, if_false_left] at h
  obtain ⟨-, h⟩ := h
  rw [grants_bind] at h
  obtain ⟨_, _, hcheck, _, h, rfl⟩ := h
  rw [grants_bind] at h
  obtain ⟨_, _, hclaim, _, h, rfl⟩ := h
  simp only [move, grants_moves_bind, grants_pure] at h
  obtain ⟨_, ⟨rfl, rfl⟩, rfl⟩ := h
  have hbefore := (claimSymbol_stock hclaim).trans (checkType_stock hcheck)
  rw [Engine.makeAll_append, Engine.makeAll_append]
  exact ⟨congrArg (Stock.data · ++ _) hbefore, congrArg Stock.bss hbefore,
    congrArg Stock.builtins hbefore⟩

/-- What a floating constant holds is a floating literal of the same value for exactly the literals
with a point or a decimal exponent and the whole ones, and no literal for all others. -/
theorem float_constant_reads_iff {t : Text} (h : Value.ofNumeral? t = some v) (e : Engine) :
    (∀ name type a ms, TypePolicy.isFloat (e.target.constantType v type) →
      (declareConst name v type).Grants e a ms →
      e.Stores (e.makeAll ms) [⟨name, e.target.directive (e.target.constantType v type),
        .number (floatSpelling t)⟩]) ∧
    (∀ type, TypePolicy.isFloat type → ∃ ms,
      (materialize v type).Grants e (.ofConstant (generatedName "float_lit" e.literals) type) ms ∧
      e.Stores (e.makeAll ms) [⟨generatedName "float_lit" e.literals, e.target.directive type,
        .number (floatSpelling t)⟩]) ∧
    (FloatReading t (floatSpelling t) ↔ hasAny ".eE" t ∨ IsWhole (unsigned t)) ∧
    (Value.ofNumeral? (floatSpelling t) = none ↔ ¬ (hasAny ".eE" t ∨ IsWhole (unsigned t))) := by
  obtain ⟨n, hread, hrange, hv⟩ := ofNumeral?_eq_some_iff.mp h
  have hkind : v.kind = .number := congrArg Value.kind hv
  have htext : v.text = t := congrArg Value.text hv
  refine ⟨fun name type a ms hfloat hgrant => ?_, fun type hfloat => ?_, ?_⟩
  · have hstores := declareConst_stores hgrant
    rwa [literalContent, if_neg (by simp [hkind]), if_pos hfloat, htext] at hstores
  · have hrun := materialize_run v type e
    rw [if_pos ⟨hkind, hfloat⟩, htext] at hrun
    have hstores := materialize_stores hrun
    rw [Engine.constantsFor, if_pos ⟨hkind, hfloat⟩, htext] at hstores
    exact ⟨_, hrun, hstores⟩
  · rcases floatSpelling_reading hread hrange with ⟨hyes, hreading⟩ | ⟨hno, hnone⟩
    · obtain ⟨w, -, -, hw, -⟩ := id hreading
      exact ⟨iff_of_true hreading hyes, iff_of_false (by simp [hw]) (not_not_intro hyes)⟩
    · refine ⟨iff_of_false ?_ hno, iff_of_true hnone hno⟩
      rintro ⟨w, -, -, hw, -⟩
      rw [hnone] at hw
      cases hw

/-- A number of the notation with its type. -/
def numberLiteral (t type : Text) : Value := { kind := .number, text := t, type := type }

/-- A thousand is stored as it was meant; sixteen, as a power of two, is stored as no number. -/
theorem float_constant_sample : let e := Engine.new .bits64 true
    Value.ofNumeral? "1_000" = some (numberLiteral "1_000" "float") ∧
    floatSpelling "1_000" = "1_000.0" ∧ FloatReading "1_000" (floatSpelling "1_000") ∧
    Value.ofNumeral? "0x1p4" = some (numberLiteral "0x1p4" "float") ∧
    floatSpelling "0x1p4" = "0x1p4.0" ∧ Value.ofNumeral? (floatSpelling "0x1p4") = none ∧
    ∃ ms, (materialize (numberLiteral "0x1p4" "float") "double").Grants e
        (.ofConstant "float_lit_0" "double") ms ∧
      e.Stores (e.makeAll ms) [⟨"float_lit_0", .dq, .number "0x1p4.0"⟩] := by
  have hwhole : Value.ofNumeral? "1_000" = some (numberLiteral "1_000" "float") := by decide +kernel
  have hhex : Value.ofNumeral? "0x1p4" = some (numberLiteral "0x1p4" "float") := by decide +kernel
  obtain ⟨-, -, hreads, -⟩ := float_constant_reads_iff hwhole (Engine.new .bits64 true)
  obtain ⟨-, hstored, -, hnone⟩ := float_constant_reads_iff hhex (Engine.new .bits64 true)
  refine ⟨hwhole, by decide, hreads.mpr (.inr (by decide)), hhex, by decide, hnone.mpr ?_,
    hstored "double" (by decide)⟩
  decide

end Assembly
