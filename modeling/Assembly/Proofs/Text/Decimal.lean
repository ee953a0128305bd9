import Assembly.Text

/-!
# Decimal digits

The digits that are written for a number are read as the number.
-/

namespace Assembly.Text

theorem digitsValue_append (t : Text) (c : UInt8) :
    digitsValue (t ++ [c]) = digitsValue t * 10 + digitValue c := by
  unfold digitsValue
  rw [List.foldl_append]
  rfl

theorem digitValue_digitChar {d : Nat} (h : d < 10) : digitValue (byte (Nat.digitChar d)) = d := by
  have hall : ∀ d < 10, digitValue (byte (Nat.digitChar d)) = d := by decide
  exact hall d h

theorem digitsValue_ofNat (n : Nat) : digitsValue (ofNat n) = n := by
  induction n using Nat.strongRecOn with
  | ind n ih =>
    unfold ofNat
    by_cases hlt : n < 10
    · rw [Nat.toDigits_of_lt_base hlt]
      show 0 * 10 + digitValue (byte (Nat.digitChar n)) = n
      rw [digitValue_digitChar hlt]
      omega
    · have hrest : digitsValue (ofNat (n / 10)) = n / 10 := ih (n / 10) (by omega)
      rw [Nat.toDigits_of_base_le (by omega) (by omega), List.map_append]
      show digitsValue (ofNat (n / 10) ++ [byte (Nat.digitChar (n % 10))]) = n
      rw [digitsValue_append, hrest, digitValue_digitChar (by omega)]
      omega

theorem isDigit_of_mem_ofNat {n : Nat} {c : UInt8} (h : c ∈ ofNat n) : isDigit c = true := by
  induction n using Nat.strongRecOn with
  | ind n ih =>
    have hdigit : ∀ d < 10, isDigit (byte (Nat.digitChar d)) = true := by decide
    unfold ofNat at h
    by_cases hlt : n < 10
    · rw [Nat.toDigits_of_lt_base hlt] at h
      rw [List.mem_singleton.mp h]
      exact hdigit n hlt
    · rw [Nat.toDigits_of_base_le (by omega) (by omega), List.map_append] at h
      rcases List.mem_append.mp h with h | h
      · exact ih (n / 10) (by omega) h
      · rw [List.mem_singleton.mp h]
        exact hdigit (n % 10) (by omega)

end Assembly.Text
