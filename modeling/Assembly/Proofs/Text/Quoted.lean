import Assembly.Proofs.Text.Rune
import Assembly.Text.Quoted
import Mathlib.Algebra.Group.Nat.Defs

/-!
# Quoting and reading back

`unquote? (quote t) = some t` for every text, well-formed or not.  What `quote` writes for one
character is one of five shapes, listed in `Escaped`; whatever else reads quoted text needs to
know no more about it.
-/

namespace Assembly.Text

open Rune

/-! ## Digits of escapes -/

theorem exists_digit_of_mem_hex {width n : Nat} {b : UInt8} (h : b ∈ hex width n) :
    ∃ d < 16, b = byte (Nat.digitChar d) := by
  induction width generalizing n with
  | zero => cases h
  | succ width ih =>
    rw [hex, List.mem_append, List.mem_singleton] at h
    rcases h with h | h
    · exact ih h
    · exact ⟨n % 16, Nat.mod_lt n (by decide), h⟩

theorem length_hex (width n : Nat) : (hex width n).length = width := by
  induction width generalizing n with
  | zero => rfl
  | succ width ih => rw [hex, List.length_append, ih, List.length_singleton]

theorem hexValue?_digit : ∀ d < 16, hexValue? (byte (Nat.digitChar d)).toNat = some d := by
  decide

theorem digit_lt : ∀ d < 16, (byte (Nat.digitChar d)).toNat < 0x80 := by
  decide

theorem lt_of_mem_hex {width n : Nat} {b : UInt8} (h : b ∈ hex width n) : b.toNat < 0x80 := by
  obtain ⟨d, hd, rfl⟩ := exists_digit_of_mem_hex h
  exact digit_lt d hd

theorem runes_hex (width n : Nat) (u : Text) :
    runes (hex width n ++ u) = (hex width n).map Rune.ascii ++ runes u :=
  runes_ascii (fun _ => lt_of_mem_hex) u

theorem numberOf?_hex (width n : Nat) :
    numberOf? 16 hexValue? ((hex width n).map Rune.ascii) = some (n % 16 ^ width) := by
  induction width generalizing n with
  | zero => simp [hex, numberOf?, Nat.mod_one]
  | succ width ih =>
    have hdigit := hexValue?_digit (n % 16) (Nat.mod_lt n (by decide))
    have hvalue : n / 16 % 16 ^ width * 16 + n % 16 = n % 16 ^ (width + 1) := by
      rw [Nat.pow_succ', Nat.mod_mul]
      omega
    have hfront := ih (n / 16)
    rw [numberOf?] at hfront ⊢
    rw [hex, List.map_append, List.foldlM_append, hfront]
    simp [Rune.ascii, hdigit, hvalue]

/-! ## What is written for a character -/

/-- `Escaped bytes written`: between double quotes, `written` stands for the character with the
given bytes. -/
inductive Escaped : Text → Text → Prop
  | plain {code : Nat} (scalar : isScalar code) (free : code ∉ [0, 10, 34, 92]) :
    Escaped (encode code) (encode code)
  | letter {e b : UInt8} (means : letterEscape? e.toNat = some b) : Escaped [b] [92, e]
  | byte (b : UInt8) : Escaped [b] (92 :: 120 :: hex 2 b.toNat)
  | short {code : Nat} (scalar : isScalar code) (fits : code < 0x10000) :
    Escaped (encode code) (92 :: 117 :: hex 4 code)
  | long {code : Nat} (scalar : isScalar code) : Escaped (encode code) (92 :: 85 :: hex 8 code)

theorem letterEscape?_of_escapeLetter? {code : Nat} {l : UInt8} (h : escapeLetter? code = some l) :
    code < 0x80 ∧ letterEscape? l.toNat = some code.toUInt8 := by
  unfold escapeLetter? at h
  split at h <;> cases h <;> decide

theorem not_isPrintable {code : Nat} (h : code ∈ [0, 10]) : isPrintable code = false := by
  simp only [List.mem_cons, List.not_mem_nil, or_false] at h
  rcases h with rfl | rfl <;> rfl

theorem escaped_of_valid {c : Rune} (hv : c.valid) (h : isScalar c.code)
    (hbytes : c.bytes = encode c.code) : Escaped c.bytes (escapeRune c) := by
  rw [escapeRune, if_neg fun hnot => hnot hv]
  by_cases hquote : c.code = 34 ∨ c.code = 92
  · rw [if_pos hquote, hbytes]
    rcases hquote with hcode | hcode <;> rw [hcode] <;> exact .letter rfl
  rw [if_neg hquote]
  by_cases hprint : isPrintable c.code
  · rw [if_pos hprint, hbytes]
    refine .plain h fun hmem => ?_
    rcases List.mem_append.mp (show c.code ∈ [0, 10] ++ [34, 92] from hmem) with hmem | hmem
    · rw [not_isPrintable hmem] at hprint
      cases hprint
    · simp only [List.mem_cons, List.not_mem_nil, or_false] at hmem
      exact hquote hmem
  rw [if_neg hprint, hbytes]
  cases hl : escapeLetter? c.code with
  | some l =>
    obtain ⟨hlt, hmeans⟩ := letterEscape?_of_escapeLetter? hl
    rw [encode, if_pos hlt]
    exact .letter hmeans
  | none =>
    by_cases hlt : c.code < 0x80
    · have hbyte := Escaped.byte c.code.toUInt8
      have hnat : c.code.toUInt8.toNat = c.code := by
        rw [toNat_toUInt8]
        omega
      rw [hnat] at hbyte
      rw [encode, if_pos hlt]
      simp only [if_pos hlt]
      exact hbyte
    by_cases hfits : c.code < 0x10000
    · simp only [if_neg hlt, if_pos hfits]
      exact .short h hfits
    · simp only [if_neg hlt, if_neg hfits]
      exact .long h

theorem escaped_of_mem_runes {t : Text} {c : Rune} (h : c ∈ runes t) :
    Escaped c.bytes (escapeRune c) := by
  rcases mem_runes h with ⟨hscalar, hc⟩ | ⟨b, rfl⟩
  · exact escaped_of_valid (by rw [hc]; rfl) hscalar (congrArg Rune.bytes hc)
  · exact .byte b

/-! ## Reading back -/

theorem lt_of_letterEscape? {e b : UInt8} (h : letterEscape? e.toNat = some b) :
    e.toNat < 0x80 := by
  unfold letterEscape? at h
  split at h
  case h_10 => cases h
  all_goals omega

theorem runes_letter {e : UInt8} (he : e.toNat < 0x80) (u : Text) :
    runes (92 :: e :: u) = Rune.ascii 92 :: Rune.ascii e :: runes u :=
  runes_ascii (t := [92, e]) (by simpa using he) u

theorem runes_digits {e : UInt8} (he : e.toNat < 0x80) (width n : Nat) (u : Text) :
    runes (92 :: e :: hex width n ++ u) =
      Rune.ascii 92 :: Rune.ascii e :: ((hex width n).map Rune.ascii ++ runes u) := by
  rw [List.cons_append, List.cons_append, runes_letter he, runes_hex]

/-- What is written for a character is read as the character, whatever follows. -/
theorem Escaped.unescape? {bytes written : Text} (h : Escaped bytes written) (u : Text) :
    unescape? (runes (written ++ u)) = (unescape? (runes u)).map (bytes ++ ·) := by
  cases h with
  | @plain code scalar free =>
    simp only [List.mem_cons, List.not_mem_nil, or_false, not_or] at free
    obtain ⟨-, hnewline, hquote, hslash⟩ := free
    rw [runes_encode scalar, unescape?.eq_def]
    simp only [ofCode, hquote, hnewline, hslash, if_false, ne_eq, not_false_eq_true, if_true]
  | @letter e b means =>
    rw [List.cons_append, List.cons_append, List.nil_append,
      runes_letter (lt_of_letterEscape? means), unescape?.eq_def]
    simp [means]
  | byte b =>
    have hn := numberOf?_hex 2 b.toNat
    have hlt : b.toNat < 16 ^ 2 := b.toNat_lt
    rw [Nat.mod_eq_of_lt hlt] at hn
    rw [runes_digits (by decide), unescape?.eq_def]
    simp only [hex, List.nil_append, List.cons_append, List.map_cons, List.map_nil] at hn ⊢
    simp [letterEscape?, hn]
  | @short code scalar fits =>
    have hn := numberOf?_hex 4 code
    have hlt : code < 16 ^ 4 := fits
    rw [Nat.mod_eq_of_lt hlt] at hn
    rw [runes_digits (by decide), unescape?.eq_def]
    simp only [hex, List.nil_append, List.cons_append, List.map_cons, List.map_nil] at hn ⊢
    simp [letterEscape?, hn, scalarBytes?, scalar]
  | @long code scalar =>
    have hn := numberOf?_hex 8 code
    have hlt := le_of_isScalar scalar
    rw [Nat.mod_eq_of_lt (by omega)] at hn
    rw [runes_digits (by decide), unescape?.eq_def]
    simp only [hex, List.nil_append, List.cons_append, List.map_cons, List.map_nil] at hn ⊢
    simp [letterEscape?, hn, scalarBytes?, scalar]

theorem unescape?_escapeRune {t : Text} {cs : List Rune} (h : cs ⊆ runes t) (u : Text) :
    unescape? (runes (cs.flatMap escapeRune ++ u)) =
      (unescape? (runes u)).map (cs.flatMap (·.bytes) ++ ·) := by
  induction cs with
  | nil => simp
  | cons c cs ih =>
    obtain ⟨hc, hcs⟩ := List.cons_subset.mp h
    rw [List.flatMap_cons, List.append_assoc, (escaped_of_mem_runes hc).unescape?, ih hcs,
      Option.map_map]
    simp [Function.comp_def]

/-- Every text is read back from its quoted form. -/
theorem unquote?_quote (t : Text) : unquote? (quote t) = some t := by
  rw [quote, unquote?, unescape?_escapeRune (List.Subset.refl _), flatMap_bytes_runes]
  have hclose : unescape? (runes [34]) = some [] := rfl
  simp [hclose]

/-! ## Reading takes marks away -/

/-- The marks of quoted texts: both kinds of quotes, and the backslash. -/
def isMarkCode (code : Nat) : Bool := code == 34 || code == 92 || code == 96

def isMark (b : UInt8) : Bool := isMarkCode b.toNat

theorem lt_of_isMarkCode {code : Nat} (h : isMarkCode code) : code < 0x80 := by
  simp only [isMarkCode, Bool.or_eq_true, beq_iff_eq] at h
  omega

theorem le_of_mem_encode {code : Nat} (h : 0x80 ≤ code) {b : UInt8} (hb : b ∈ encode code) :
    0x80 ≤ b.toNat := by
  rw [encode, if_neg (by omega)] at hb
  by_cases htwo : code < 0x800
  · rw [if_pos htwo] at hb
    simp only [List.mem_cons, List.not_mem_nil, or_false] at hb
    rcases hb with rfl | rfl <;> rw [toNat_toUInt8] <;> omega
  rw [if_neg htwo] at hb
  by_cases hscalar : isScalar code
  · have hle := le_of_isScalar hscalar
    rw [if_neg fun hnot => hnot hscalar] at hb
    split at hb <;> simp only [List.mem_cons, List.not_mem_nil, or_false] at hb
    · rcases hb with rfl | rfl | rfl <;> rw [toNat_toUInt8] <;> omega
    · rcases hb with rfl | rfl | rfl | rfl <;> rw [toNat_toUInt8] <;> omega
  · rw [if_pos hscalar] at hb
    simp only [List.mem_cons, List.not_mem_nil, or_false] at hb
    rcases hb with rfl | rfl | rfl <;> decide

/-- A character has a mark among its bytes only if it is the mark. -/
theorem countP_encode (code : Nat) :
    (encode code).countP isMark = if isMarkCode code then 1 else 0 := by
  by_cases hlt : code < 0x80
  · have hbyte : isMark code.toUInt8 = isMarkCode code := by
      rw [isMark, toNat_toUInt8, Nat.mod_eq_of_lt (by omega)]
    rw [encode, if_pos hlt, List.countP_singleton, hbyte]
  · have hnone : ∀ b ∈ encode code, ¬isMark b := by
      intro b hb hmark
      have hge := le_of_mem_encode (by omega) hb
      have hsmall := lt_of_isMarkCode hmark
      omega
    rw [List.countP_eq_zero.mpr hnone, if_neg fun h => hlt (lt_of_isMarkCode h)]

theorem countP_runes_le (t : Text) : (runes t).countP (isMarkCode ·.code) ≤ t.countP isMark := by
  induction t using rune_induction with
  | nil => exact Nat.le_refl 0
  | scalar code t h ih =>
    rw [runes_encode h, List.countP_cons, List.countP_append, countP_encode]
    show _ + (if isMarkCode code then 1 else 0) ≤ _
    omega
  | other b t h ih =>
    rw [runes_malformed h, List.countP_cons, List.countP_cons]
    show _ + (if isMarkCode 0xFFFD then 1 else 0) ≤ _
    have hnot : isMarkCode 0xFFFD = false := rfl
    rw [hnot]
    simp only [Bool.false_eq_true, if_false]
    omega

/-- What an escape stands for has no more marks than the backslash in front of it. -/
theorem countP_escape {c : Rune} (hc : c.code = 92) (es : List Rune) {r : List Rune} {x u : Text}
    (hx : x.countP isMark ≤ 1) (hu : u.countP isMark < r.countP (isMarkCode ·.code)) :
    (x ++ u).countP isMark < (c :: (es ++ r)).countP (isMarkCode ·.code) := by
  have hmark : isMarkCode c.code = true := by
    rw [hc]
    rfl
  rw [List.countP_append, List.countP_cons, List.countP_append, hmark, if_pos rfl]
  omega

theorem countP_scalarBytes? {o : Option Nat} {bytes : Text} (h : o.bind scalarBytes? = some bytes) :
    bytes.countP isMark ≤ 1 := by
  obtain ⟨code, -, hcode⟩ := Option.bind_eq_some_iff.mp h
  rw [scalarBytes?] at hcode
  split at hcode
  next =>
    cases hcode
    rw [countP_encode]
    split <;> decide
  next => cases hcode

theorem countP_unescape? {cs : List Rune} {u : Text} (h : unescape? cs = some u) :
    u.countP isMark < cs.countP (isMarkCode ·.code) := by
  fun_induction unescape? cs generalizing u with
  | case2 c r hc _ =>
    cases h
    rw [List.countP_cons, hc]
    exact Nat.succ_pos _
  | case5 c r _ _ _ ih =>
    obtain ⟨u, hr, rfl⟩ := Option.map_eq_some_iff.mp h
    rw [List.countP_append, List.countP_cons, countP_encode]
    have hlt := ih hr
    omega
  | case7 c _ _ hc e r l _ ih =>
    obtain ⟨u, hr, rfl⟩ := Option.map_eq_some_iff.mp h
    exact countP_escape (Decidable.not_not.mp hc) [e] (x := [l]) List.countP_le_length (ih hr)
  | case8 c _ _ hc e _ _ a b r ih =>
    obtain ⟨n, -, h⟩ := Option.bind_eq_some_iff.mp h
    obtain ⟨u, hr, rfl⟩ := Option.map_eq_some_iff.mp h
    exact countP_escape (Decidable.not_not.mp hc) [e, a, b] (x := [n.toUInt8]) List.countP_le_length
      (ih hr)
  | case10 c _ _ hc e _ _ _ w x y z r ih =>
    obtain ⟨bytes, hbytes, h⟩ := Option.bind_eq_some_iff.mp h
    obtain ⟨u, hr, rfl⟩ := Option.map_eq_some_iff.mp h
    exact countP_escape (Decidable.not_not.mp hc) [e, w, x, y, z] (countP_scalarBytes? hbytes) (ih hr)
  | case12 c _ _ hc e _ _ _ _ w x y z w' x' y' z' r ih =>
    obtain ⟨bytes, hbytes, h⟩ := Option.bind_eq_some_iff.mp h
    obtain ⟨u, hr, rfl⟩ := Option.map_eq_some_iff.mp h
    exact countP_escape (Decidable.not_not.mp hc) [e, w, x, y, z, w', x', y', z']
      (countP_scalarBytes? hbytes) (ih hr)
  | case14 c _ _ hc e _ _ _ _ a b r ih =>
    obtain ⟨n, -, h⟩ := Option.bind_eq_some_iff.mp h
    split at h
    next =>
      obtain ⟨u, hr, rfl⟩ := Option.map_eq_some_iff.mp h
      exact countP_escape (Decidable.not_not.mp hc) [e, a, b] (x := [n.toUInt8])
        List.countP_le_length (ih hr)
    next => cases h
  | _ => cases h

/-- Reading a quoted text takes marks away. -/
theorem countP_unquote? {t u : Text} (h : unquote? t = some u) :
    u.countP isMark < t.countP isMark := by
  unfold unquote? at h
  split at h
  next r =>
    calc u.countP isMark < (runes r).countP (isMarkCode ·.code) := countP_unescape? h
      _ ≤ r.countP isMark := countP_runes_le r
      _ ≤ (34 :: r).countP isMark := (List.sublist_cons_self 34 r).countP_le
  next r =>
    split at h
    next body hr =>
      split at h
      next => cases h
      next =>
        cases h
        have hbody : (96 :: r).countP isMark = body.countP isMark + 2 := by
          rw [List.countP_cons, ← List.countP_reverse, hr, List.countP_cons]
          rfl
        rw [hbody, ← List.countP_reverse (l := body)]
        have hle := (List.filter_sublist (l := body.reverse) (p := (· != 13))).countP_le (p := isMark)
        omega
    next => cases h
  next => cases h

end Assembly.Text
