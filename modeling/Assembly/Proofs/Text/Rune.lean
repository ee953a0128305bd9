import Assembly.Text.Rune

/-!
# Reading characters

Reading a text as characters and writing characters as bytes undo each other: the bytes of the
characters of a text join to the text, and the bytes of a code point are read as that code point
whatever follows them.  So a well-formed text in front of another is read on its own.
-/

namespace Assembly

namespace Rune

/-! ## One character -/

theorem toNat_toUInt8 (n : Nat) : n.toUInt8.toNat = n % 256 := UInt8.toNat_ofNat

theorem payload?_toUInt8 {n : Nat} (h : n < 64) : payload? (0x80 + n).toUInt8 = some n := by
  have hn : (0x80 + n).toUInt8.toNat = 0x80 + n := by rw [toNat_toUInt8]; omega
  rw [payload?, if_pos]
  · rw [hn, Nat.add_sub_cancel_left]
  · simp only [UInt8.le_iff_toNat_le, hn, UInt8.reduceToNat]
    omega

theorem scalar?_eq_some {least width code : Nat} (hl : least ≤ code) (hs : isScalar code) :
    scalar? least width code = some (code, width) := if_pos ⟨hl, hs⟩

theorem le_of_isScalar {code : Nat} (h : isScalar code) : code ≤ 0x10FFFF := by
  simp only [isScalar, Bool.or_eq_true, Bool.and_eq_true, decide_eq_true_eq] at h
  omega

theorem sequence?_encode {code : Nat} (h : isScalar code) (rest : Text) :
    sequence? (encode code ++ rest) = some (code, (encode code).length) := by
  have hmax := le_of_isScalar h
  rw [encode]
  by_cases h1 : code < 0x80
  · have hn : code.toUInt8.toNat = code := by rw [toNat_toUInt8]; omega
    rw [if_pos h1]
    simp only [List.singleton_append, sequence?, UInt8.lt_iff_toNat_lt, hn, UInt8.reduceToNat]
    rw [if_pos h1]
    rfl
  rw [if_neg h1]
  by_cases h2 : code < 0x800
  · have hn : (0xC0 + code / 64).toUInt8.toNat = 0xC0 + code / 64 := by rw [toNat_toUInt8]; omega
    rw [if_pos h2]
    simp only [List.cons_append, List.nil_append, sequence?, UInt8.lt_iff_toNat_lt,
      UInt8.le_iff_toNat_le, hn, UInt8.reduceToNat]
    rw [if_neg (by omega), if_pos (by omega), payload?_toUInt8 (by omega)]
    show scalar? 0x80 2 _ = _
    have hcode : (0xC0 + code / 64 - 0xC0) * 64 + code % 64 = code := by omega
    rw [hcode, scalar?_eq_some (by omega) h]
    rfl
  rw [if_neg h2, if_neg (by simpa using h)]
  by_cases h3 : code < 0x10000
  · have hn : (0xE0 + code / 4096).toUInt8.toNat = 0xE0 + code / 4096 := by
      rw [toNat_toUInt8]; omega
    rw [if_pos h3]
    simp only [List.cons_append, List.nil_append, sequence?, UInt8.lt_iff_toNat_lt,
      UInt8.le_iff_toNat_le, hn, UInt8.reduceToNat]
    rw [if_neg (by omega), if_neg (by omega), if_pos (by omega), payload?_toUInt8 (by omega),
      payload?_toUInt8 (by omega)]
    show scalar? 0x800 3 _ = _
    have hcode : ((0xE0 + code / 4096 - 0xE0) * 64 + code / 64 % 64) * 64 + code % 64 = code := by
      omega
    rw [hcode, scalar?_eq_some (by omega) h]
    rfl
  · have hn : (0xF0 + code / 262144).toUInt8.toNat = 0xF0 + code / 262144 := by
      rw [toNat_toUInt8]; omega
    rw [if_neg h3]
    simp only [List.cons_append, List.nil_append, sequence?, UInt8.lt_iff_toNat_lt,
      UInt8.le_iff_toNat_le, hn, UInt8.reduceToNat]
    rw [if_neg (by omega), if_neg (by omega), if_neg (by omega), if_pos (by omega),
      payload?_toUInt8 (by omega), payload?_toUInt8 (by omega), payload?_toUInt8 (by omega)]
    show scalar? 0x10000 4 _ = _
    have hcode : (((0xF0 + code / 262144 - 0xF0) * 64 + code / 4096 % 64) * 64 + code / 64 % 64) *
        64 + code % 64 = code := by omega
    rw [hcode, scalar?_eq_some (by omega) h]
    rfl

theorem toUInt8_eq {n : Nat} {b : UInt8} (h : n = b.toNat) : n.toUInt8 = b := by
  rw [h]
  exact UInt8.ofNat_toNat

theorem forall_byte {P : UInt8 → Prop} (h : ∀ n < 256, P n.toUInt8) (b : UInt8) : P b :=
  toUInt8_eq (b := b) rfl ▸ h b.toNat b.toNat_lt

theorem of_payload?_eq_some {b : UInt8} {x : Nat} (h : payload? b = some x) :
    b.toNat = 0x80 + x ∧ x < 64 := by
  rw [payload?] at h
  split at h
  case isTrue hb =>
    simp only [UInt8.le_iff_toNat_le, UInt8.reduceToNat] at hb
    have hx := Option.some.inj h
    omega
  case isFalse => cases h

theorem of_scalar?_eq_some {least width code c w : Nat} (h : scalar? least width code = some (c, w)) :
    least ≤ code ∧ isScalar code ∧ c = code ∧ w = width := by
  rw [scalar?] at h
  split at h
  case isTrue hcode =>
    cases h
    exact ⟨hcode.1, hcode.2, rfl, rfl⟩
  case isFalse => cases h

/-- The bytes of a sequence are those of its code point. -/
theorem take_of_sequence? {t : Text} {code width : Nat} (h : sequence? t = some (code, width)) :
    isScalar code ∧ t.take width = encode code ∧ 0 < width := by
  cases t with
  | nil => cases h
  | cons a r =>
    have ha := a.toNat_lt
    simp only [sequence?, UInt8.lt_iff_toNat_lt, UInt8.le_iff_toNat_le, UInt8.reduceToNat] at h
    split at h
    case isTrue h1 =>
      cases h
      refine ⟨by simp only [isScalar, Bool.or_eq_true, decide_eq_true_eq]; omega, ?_, Nat.one_pos⟩
      rw [encode, if_pos h1, toUInt8_eq rfl]
      rfl
    case isFalse h1 =>
      split at h
      case isTrue h2 =>
        cases r with
        | nil => cases h
        | cons b r =>
          obtain ⟨x, hx, h⟩ := Option.bind_eq_some_iff.mp h
          obtain ⟨hb, hxlt⟩ := of_payload?_eq_some hx
          obtain ⟨hl, hs, rfl, rfl⟩ := of_scalar?_eq_some h
          refine ⟨hs, ?_, by omega⟩
          rw [encode, if_neg (by omega), if_pos (by omega), toUInt8_eq (b := a) (by omega),
            toUInt8_eq (b := b) (by omega)]
          rfl
      case isFalse h2 =>
        split at h
        case isTrue h3 =>
          rcases r with _ | ⟨b, _ | ⟨c, r⟩⟩
          case nil | cons.nil => cases h
          case cons.cons =>
            obtain ⟨x, hx, h⟩ := Option.bind_eq_some_iff.mp h
            obtain ⟨y, hy, h⟩ := Option.bind_eq_some_iff.mp h
            obtain ⟨hb, hxlt⟩ := of_payload?_eq_some hx
            obtain ⟨hc, hylt⟩ := of_payload?_eq_some hy
            obtain ⟨hl, hs, rfl, rfl⟩ := of_scalar?_eq_some h
            refine ⟨hs, ?_, by omega⟩
            rw [encode, if_neg (by omega), if_neg (by omega), if_neg (by simpa using hs),
              if_pos (by omega), toUInt8_eq (b := a) (by omega), toUInt8_eq (b := b) (by omega),
              toUInt8_eq (b := c) (by omega)]
            rfl
        case isFalse h3 =>
          split at h
          case isTrue h4 =>
            rcases r with _ | ⟨b, _ | ⟨c, _ | ⟨d, r⟩⟩⟩
            case nil | cons.nil | cons.cons.nil => cases h
            case cons.cons.cons =>
              obtain ⟨x, hx, h⟩ := Option.bind_eq_some_iff.mp h
              obtain ⟨y, hy, h⟩ := Option.bind_eq_some_iff.mp h
              obtain ⟨z, hz, h⟩ := Option.bind_eq_some_iff.mp h
              obtain ⟨hb, hxlt⟩ := of_payload?_eq_some hx
              obtain ⟨hc, hylt⟩ := of_payload?_eq_some hy
              obtain ⟨hd, hzlt⟩ := of_payload?_eq_some hz
              obtain ⟨hl, hs, rfl, rfl⟩ := of_scalar?_eq_some h
              refine ⟨hs, ?_, by omega⟩
              rw [encode, if_neg (by omega), if_neg (by omega), if_neg (by simpa using hs),
                if_neg (by omega), toUInt8_eq (b := a) (by omega), toUInt8_eq (b := b) (by omega),
                toUInt8_eq (b := c) (by omega), toUInt8_eq (b := d) (by omega)]
              rfl
          case isFalse => cases h

theorem length_encode_pos (code : Nat) : 0 < (encode code).length := by
  simp only [encode]
  split
  · exact Nat.one_pos
  · split
    · simp
    · split
      · simp
      · split <;> simp

theorem first_encode {code : Nat} (h : isScalar code) {b : UInt8} {r rest : Text}
    (ht : encode code ++ rest = b :: r) : first b r = ofCode code := by
  rw [first, ← ht, sequence?_encode h]
  simp [ofCode]

theorem readFrom_eq_drop (n : Nat) (t : Text) : readFrom n t = readFrom 0 (t.drop n) := by
  induction n generalizing t with
  | zero => rfl
  | succ n ih =>
    cases t with
    | nil => rfl
    | cons b r => exact ih r

/-- The character that a byte below 128 is. -/
def ascii (b : UInt8) : Rune := ⟨b.toNat, [b], true⟩

@[simp] theorem code_ascii (b : UInt8) : (ascii b).code = b.toNat := rfl

theorem isScalar_ascii {b : UInt8} (h : b.toNat < 0x80) : isScalar b.toNat := by
  simp only [isScalar, Bool.or_eq_true, decide_eq_true_eq]
  omega

theorem encode_ascii {b : UInt8} (h : b.toNat < 0x80) : encode b.toNat = [b] := by
  rw [encode, if_pos h, toUInt8_eq rfl]

end Rune

namespace Text

open Rune

/-! ## The characters of a text -/

@[simp] theorem runes_nil : runes [] = [] := rfl

theorem runes_cons (b : UInt8) (r : Text) :
    runes (b :: r) = first b r :: runes (r.drop ((first b r).bytes.length - 1)) :=
  congrArg (first b r :: ·) (readFrom_eq_drop _ _)

/-- The bytes of a code point are read as the code point, whatever follows. -/
theorem runes_encode {code : Nat} (h : isScalar code) (t : Text) :
    runes (encode code ++ t) = ofCode code :: runes t := by
  have hpos := length_encode_pos code
  cases ht : encode code ++ t with
  | nil =>
    have hlen := congrArg List.length ht
    rw [List.length_append, List.length_nil] at hlen
    omega
  | cons b r =>
    rw [runes_cons, first_encode h ht]
    congr 2
    calc r.drop ((encode code).length - 1)
        = (b :: r).drop ((encode code).length - 1 + 1) := rfl
      _ = (encode code ++ t).drop (encode code).length := by rw [ht, Nat.sub_add_cancel hpos]
      _ = t := List.drop_left

theorem runes_malformed {b : UInt8} {t : Text} (h : sequence? (b :: t) = none) :
    runes (b :: t) = malformed b :: runes t := by
  rw [runes_cons, first, h]
  rfl

/-- Texts are made of code points and of bytes that belong to none. -/
theorem rune_induction {P : Text → Prop} (nil : P [])
    (scalar : ∀ code t, isScalar code → P t → P (encode code ++ t))
    (other : ∀ b t, sequence? (b :: t) = none → P t → P (b :: t)) (t : Text) : P t := by
  induction hn : t.length using Nat.strongRecOn generalizing t with
  | ind n ih =>
    subst hn
    cases t with
    | nil => exact nil
    | cons b r =>
      cases hs : sequence? (b :: r) with
      | none => exact other b r hs (ih r.length (Nat.lt_succ_self _) r rfl)
      | some cw =>
        obtain ⟨code, width⟩ := cw
        obtain ⟨hscalar, htake, hpos⟩ := take_of_sequence? hs
        have hlen : ((b :: r).drop width).length < (b :: r).length := by
          rw [List.length_drop, List.length_cons]
          omega
        have h := scalar code _ hscalar (ih _ hlen _ rfl)
        rwa [← htake, List.take_append_drop] at h

theorem flatMap_bytes_runes (t : Text) : (runes t).flatMap (·.bytes) = t := by
  induction t using rune_induction with
  | nil => rfl
  | scalar code t h ih => rw [runes_encode h, List.flatMap_cons, ih]; rfl
  | other b t h ih => rw [runes_malformed h, List.flatMap_cons, ih]; rfl

/-- A character of a text is a code point with its bytes, or a byte that belongs to none. -/
theorem mem_runes {t : Text} {c : Rune} (h : c ∈ runes t) :
    (isScalar c.code ∧ c = ofCode c.code) ∨ ∃ b, c = malformed b := by
  induction t using rune_induction with
  | nil => cases h
  | scalar code t hcode ih =>
    rw [runes_encode hcode] at h
    rcases List.mem_cons.mp h with rfl | h
    · exact .inl ⟨hcode, rfl⟩
    · exact ih h
  | other b t hb ih =>
    rw [runes_malformed hb] at h
    rcases List.mem_cons.mp h with rfl | h
    · exact .inr ⟨b, rfl⟩
    · exact ih h

theorem eq_ofCode_of_valid {t : Text} {c : Rune} (h : c ∈ runes t) (hv : c.valid) :
    isScalar c.code ∧ c = ofCode c.code := by
  rcases mem_runes h with hc | ⟨b, rfl⟩
  · exact hc
  · cases hv

/-- Well-formed characters are read as they are, whatever follows. -/
theorem runes_flatMap_bytes {cs : List Rune} (h : ∀ c ∈ cs, isScalar c.code ∧ c = ofCode c.code)
    (t : Text) : runes (cs.flatMap (·.bytes) ++ t) = cs ++ runes t := by
  induction cs with
  | nil => rfl
  | cons c cs ih =>
    obtain ⟨hscalar, hc⟩ := h c List.mem_cons_self
    have hbytes : c.bytes = encode c.code := congrArg Rune.bytes hc
    rw [List.flatMap_cons, List.append_assoc, hbytes, runes_encode hscalar, ← hc,
      ih fun d hd => h d (List.mem_cons_of_mem c hd), List.cons_append]

/-- A well-formed text is read on its own, whatever follows. -/
theorem runes_append {t : Text} (h : isUtf8 t) (u : Text) : runes (t ++ u) = runes t ++ runes u := by
  have hcs : ∀ c ∈ runes t, isScalar c.code ∧ c = ofCode c.code :=
    fun c hc => eq_ofCode_of_valid hc (List.all_eq_true.mp h c hc)
  have hread := runes_flatMap_bytes hcs u
  rwa [flatMap_bytes_runes] at hread

theorem runes_ascii {t : Text} (h : ∀ b ∈ t, b.toNat < 0x80) (u : Text) :
    runes (t ++ u) = t.map Rune.ascii ++ runes u := by
  induction t with
  | nil => rfl
  | cons b t ih =>
    have hb := h b List.mem_cons_self
    have hread := runes_encode (isScalar_ascii hb) (t ++ u)
    rw [encode_ascii hb, ofCode, encode_ascii hb,
      ih fun d hd => h d (List.mem_cons_of_mem b hd)] at hread
    exact hread

end Text

end Assembly
