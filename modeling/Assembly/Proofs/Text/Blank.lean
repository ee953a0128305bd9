import Assembly.Proofs.Text.Lines
import Assembly.Proofs.Text.Rune
import Assembly.Text.Blank

/-!
# Trimming

`blanks` are the byte sequences of the blank characters.  Trimming takes them off the front of a
text, and off the front of the reversed text, as long as there is one.  No sequence of `blanks`
begins inside of another, so a blank behind a text cannot turn its end into another blank, and
trimming one end does not depend on what stands at the other.
-/

namespace Assembly.Text

/-! ## Taking words off the front -/

/-- `f` takes words off the front of a text as long as the text begins with one. -/
structure Sheds (words : List Text) (f : Text → Text) : Prop where
  ne_nil : [] ∉ words
  skip : ∀ b ∈ words, ∀ t, f (b ++ t) = f t
  stop : ∀ t, f t = t ∨ ∃ b ∈ words, b <+: t

namespace Sheds

variable {words : List Text} {f : Text → Text} {b : Text}

theorem length_pos (h : Sheds words f) (hb : b ∈ words) : 0 < b.length :=
  List.length_pos_iff.mpr fun he => h.ne_nil (he ▸ hb)

/-- A text has a word in front, or it is left as it is. -/
theorem induction (h : Sheds words f) {P : Text → Prop} (skip : ∀ b ∈ words, ∀ t, P t → P (b ++ t))
    (stop : ∀ t, f t = t → P t) (t : Text) : P t := by
  induction hn : t.length using Nat.strongRecOn generalizing t with
  | ind n ih =>
    rcases h.stop t with ht | ⟨b, hb, r, rfl⟩
    · exact stop t ht
    · refine skip b hb r (ih r.length ?_ r rfl)
      have hpos := h.length_pos hb
      rw [← hn, List.length_append]
      omega

theorem isSuffix (h : Sheds words f) (t : Text) : f t <:+ t := by
  refine h.induction (P := fun t => f t <:+ t) (fun b hb t ih => ?_) (fun t ht => ?_) t
  · rw [h.skip b hb t]
    exact ih.trans (List.suffix_append b t)
  · exact ⟨[], ht⟩

/-- What is left begins with no word. -/
theorem not_isPrefix (h : Sheds words f) (hb : b ∈ words) (t : Text) : ¬ b <+: f t := by
  refine h.induction (P := fun t => ¬ b <+: f t) (fun c hc t ih => ?_) (fun t ht => ?_) t
  · rw [h.skip c hc t]
    exact ih
  · rw [ht]
    rintro ⟨r, rfl⟩
    -- The word would be taken off, so the text would get shorter.
    have hle := (h.isSuffix r).length_le
    rw [← h.skip b hb r, ht, List.length_append] at hle
    have hpos := h.length_pos hb
    omega

/-- What does not depend on a word in front does not depend on all that is taken off. -/
theorem keeps (h : Sheds words f) {β : Type} {g : Text → β}
    (hg : ∀ b ∈ words, ∀ t, g (b ++ t) = g t) (t : Text) : g (f t) = g t := by
  refine h.induction (P := fun t => g (f t) = g t) (fun b hb t ih => ?_) (fun t ht => ?_) t
  · rw [h.skip b hb t, ih, hg b hb t]
  · rw [ht]

end Sheds

/-! ## Blanks -/

/-- The blank code points: those of one byte, and those of several. -/
def blankCodes : List Nat :=
  [9, 10, 11, 12, 13, 0x20] ++
    [0x85, 0xA0, 0x1680, 0x2000, 0x2001, 0x2002, 0x2003, 0x2004, 0x2005, 0x2006, 0x2007, 0x2008,
      0x2009, 0x200A, 0x2028, 0x2029, 0x202F, 0x205F, 0x3000]

theorem mem_blankCodes {code : Nat} : code ∈ blankCodes ↔ isBlankCode code := by
  have hranges : blankCodes = List.range' 9 5 ++ [0x20, 0x85, 0xA0, 0x1680] ++
      List.range' 0x2000 11 ++ [0x2028, 0x2029, 0x202F, 0x205F, 0x3000] := rfl
  simp only [hranges, List.mem_append, List.mem_range'_1, List.mem_cons, List.not_mem_nil, or_false,
    isBlankCode, Bool.or_eq_true, Bool.and_eq_true, decide_eq_true_eq, beq_iff_eq]
  omega

/-- The byte sequences of the blanks. -/
def blanks : List Text := blankCodes.map Rune.encode

theorem encode_mem_blanks {code : Nat} (h : isBlankCode code) : Rune.encode code ∈ blanks :=
  List.mem_map_of_mem (mem_blankCodes.mpr h)

theorem nil_notMem_blanks : [] ∉ blanks := by decide

theorem newline_notMem_of_mem_blanks {b : Text} (hb : b ∈ blanks) (hne : b ≠ [10]) : 10 ∉ b := by
  have hall : ∀ b ∈ blanks, b ≠ [10] → 10 ∉ b := by decide
  exact hall b hb hne

/-- The bytes inside of a character of several bytes. -/
def isContinuation (c : UInt8) : Bool := 0x80 ≤ c && c < 0xC0

theorem isContinuation_of_mem_blanks {a m : Text} {c : UInt8} (h : a ++ c :: m ∈ blanks) :
    isContinuation c = !a.isEmpty := by
  have hall : ∀ b ∈ blanks, ∀ n < b.length,
      (b[n]?).all fun c => isContinuation c = decide (n ≠ 0) := by decide
  have hc := hall _ h a.length (by simp)
  rw [List.getElem?_append_right (Nat.le_refl _)] at hc
  cases a with
  | nil => simpa using hc
  | cons => simpa using hc

/-- A blank at the front of a text with a blank behind it is a blank at the front of the text. -/
theorem blank_isPrefix {l b c : Text} (hl : l ≠ []) (hb : b ∈ blanks) (hc : c ∈ blanks)
    (h : c <+: l ++ b) : c <+: l := by
  obtain ⟨r, hr⟩ := h
  rcases List.append_eq_append_iff.mp hr with ⟨m, rfl, hm⟩ | ⟨m, rfl, hm⟩
  · exact List.prefix_append c m
  cases m with
  | nil => exact (List.append_nil l).symm ▸ List.prefix_refl l
  | cons x m =>
    -- A byte of `c` that is not its first would be the first byte of `b`.
    have hfirst : isContinuation x = false := isContinuation_of_mem_blanks (a := []) (hm ▸ hb)
    have hinside := isContinuation_of_mem_blanks hc
    rw [hfirst] at hinside
    simp [hl] at hinside

/-! ## Both ends -/

theorem forall_mem_blanks {P : Text → Prop} :
    (∀ b ∈ blanks, P b) ↔ ∀ code ∈ blankCodes, P (Rune.encode code) := List.forall_mem_map

theorem asciiBlank_mem_blanks {c : UInt8} : isAsciiBlank c → [c] ∈ blanks :=
  Rune.forall_byte (P := fun c => isAsciiBlank c → [c] ∈ blanks) (by decide +kernel) c

theorem wideBlank_mem_blanks {c : UInt8} : endsWideBlank c → [0xE2, 0x80, c] ∈ blanks :=
  Rune.forall_byte (P := fun c => endsWideBlank c → [0xE2, 0x80, c] ∈ blanks) (by decide +kernel) c

theorem trimLeft_blank_append {b : Text} (hb : b ∈ blanks) (t : Text) :
    trimLeft (b ++ t) = trimLeft t := by
  revert b
  simp only [forall_mem_blanks, blankCodes, List.forall_mem_append, List.forall_mem_cons,
    List.not_mem_nil, false_implies, implies_true, and_true]
  and_intros <;> rfl

/-- A blank of one byte ends a text whatever stands in front of it. -/
theorem trimReversed_cons {c : UInt8} (h : isAsciiBlank c) (t : Text) :
    trimReversed (c :: t) = trimReversed t := by
  generalize hs : c :: t = s
  fun_cases trimReversed s with
  | case1 => cases hs
  | case2 | case3 | case4 | case5 | case6 =>
    cases hs
    cases h
  | case7 d r hd =>
    -- No byte is a blank of its own and the last byte of another one.
    cases hs
    have hown := isContinuation_of_mem_blanks (a := []) (asciiBlank_mem_blanks h)
    have hlast := isContinuation_of_mem_blanks (a := [0xE2, 0x80]) (wideBlank_mem_blanks hd)
    rw [hown] at hlast
    cases hlast
  | case8 | case10 =>
    cases hs
    rfl
  | case9 | case11 =>
    cases hs
    contradiction

theorem trimReversed_blank_append {b : Text} (hb : b ∈ blanks) (t : Text) :
    trimReversed (b.reverse ++ t) = trimReversed t := by
  revert b
  simp only [forall_mem_blanks, blankCodes, List.forall_mem_append, List.forall_mem_cons,
    List.not_mem_nil, false_implies, implies_true, and_true]
  constructor
  · and_intros <;> exact trimReversed_cons rfl t
  · and_intros <;> rfl

theorem sheds_trimLeft : Sheds blanks trimLeft where
  ne_nil := nil_notMem_blanks
  skip _ hb t := trimLeft_blank_append hb t
  stop t := by
    fun_cases trimLeft t with
    | case1 | case8 | case10 => exact .inl rfl
    | case2 r => exact .inr ⟨[0xC2, 0x85], by decide, r, rfl⟩
    | case3 r => exact .inr ⟨[0xC2, 0xA0], by decide, r, rfl⟩
    | case4 r => exact .inr ⟨[0xE1, 0x9A, 0x80], by decide, r, rfl⟩
    | case5 r => exact .inr ⟨[0xE2, 0x81, 0x9F], by decide, r, rfl⟩
    | case6 r => exact .inr ⟨[0xE3, 0x80, 0x80], by decide, r, rfl⟩
    | case7 c r h => exact .inr ⟨_, wideBlank_mem_blanks h, r, rfl⟩
    | case9 c r _ _ _ _ _ _ h => exact .inr ⟨_, asciiBlank_mem_blanks h, r, rfl⟩

theorem sheds_trimReversed : Sheds (blanks.map List.reverse) trimReversed where
  ne_nil := by decide
  skip b' hb' t := by
    obtain ⟨b, hb, rfl⟩ := List.mem_map.mp hb'
    exact trimReversed_blank_append hb t
  stop t := by
    fun_cases trimReversed t with
    | case1 => exact .inl rfl
    | case2 r => exact .inr ⟨[0x85, 0xC2], by decide, r, rfl⟩
    | case3 r => exact .inr ⟨[0xA0, 0xC2], by decide, r, rfl⟩
    | case4 r => exact .inr ⟨[0x80, 0x9A, 0xE1], by decide, r, rfl⟩
    | case5 r => exact .inr ⟨[0x9F, 0x81, 0xE2], by decide, r, rfl⟩
    | case6 r => exact .inr ⟨[0x80, 0x80, 0xE3], by decide, r, rfl⟩
    | case7 c r h => exact .inr ⟨_, List.mem_map_of_mem (wideBlank_mem_blanks h), r, rfl⟩
    | case8 c r _ h => exact .inr ⟨_, List.mem_map_of_mem (asciiBlank_mem_blanks h), _, rfl⟩
    | case9 | case11 => exact .inl rfl
    | case10 c r _ _ _ _ _ _ h =>
      exact .inr ⟨_, List.mem_map_of_mem (asciiBlank_mem_blanks h), r, rfl⟩

section

variable {b : Text} (hb : b ∈ blanks) (t : Text)
include hb

theorem trimRight_append_blank : trimRight (t ++ b) = trimRight t := by
  rw [trimRight, List.reverse_append, trimReversed_blank_append hb, trimRight]

theorem not_isSuffix_trimRight : ¬ b <:+ trimRight t := by
  rw [trimRight, ← List.reverse_reverse b, List.reverse_suffix]
  exact Sheds.not_isPrefix sheds_trimReversed (List.mem_map_of_mem hb) _

theorem trim_blank_append : trim (b ++ t) = trim t := by
  rw [trim, trimLeft_blank_append hb, trim]

/-- A blank behind a text is trimmed, whether or not something is left of the text. -/
theorem trim_append_blank : trim (t ++ b) = trim t := by
  refine Sheds.induction sheds_trimLeft (P := fun t => trim (t ++ b) = trim t)
    (fun c hc t ih => ?_) (fun t ht => ?_) t
  · rw [List.append_assoc, trim_blank_append hc, ih, trim_blank_append hc]
  · by_cases hne : t = []
    · subst hne
      rw [List.nil_append, ← List.append_nil b, trim_blank_append hb]
    have hkept : trimLeft (t ++ b) = t ++ b := by
      refine (Sheds.stop sheds_trimLeft (t ++ b)).resolve_right ?_
      rintro ⟨c, hc, hfront⟩
      exact Sheds.not_isPrefix sheds_trimLeft hc t (ht.symm ▸ blank_isPrefix hne hb hc hfront)
    rw [trim, hkept, trimRight_append_blank hb, trim, ht]

end

theorem trimRight_isPrefix (t : Text) : trimRight t <+: t := by
  rw [trimRight, ← List.reverse_suffix, List.reverse_reverse]
  exact Sheds.isSuffix sheds_trimReversed t.reverse

theorem not_isPrefix_trim {b : Text} (hb : b ∈ blanks) (t : Text) : ¬ b <+: trim t :=
  fun h => Sheds.not_isPrefix sheds_trimLeft hb t (h.trans (trimRight_isPrefix _))

theorem trim_subset (t : Text) : trim t ⊆ t :=
  List.Subset.trans (trimRight_isPrefix _).subset (Sheds.isSuffix sheds_trimLeft t).subset

/-- What does not depend on a blank at either end does not depend on all that is trimmed. -/
theorem trim_keeps {β : Type} {g : Text → β} (hfront : ∀ b ∈ blanks, ∀ t, g (b ++ t) = g t)
    (hback : ∀ b ∈ blanks, ∀ t, g (t ++ b) = g t) (t : Text) : g (trim t) = g t := by
  have hright : ∀ u, g (trimRight u) = g u := by
    intro u
    have hkeeps := Sheds.keeps sheds_trimReversed (g := fun v => g v.reverse)
      (fun c hc v => ?_) u.reverse
    · simpa [trimRight] using hkeeps
    · obtain ⟨b, hb, rfl⟩ := List.mem_map.mp hc
      simpa using hback b hb v.reverse
  rw [trim, hright, Sheds.keeps sheds_trimLeft hfront]

/-! ## Lines that are not blank -/

/-- The lines of a text without the blanks around them, those that are blank left out. -/
def trimmedLines (t : Text) : List Text := ((lines t).map trim).filter (· ≠ [])

theorem trimmedLines_append_newline (t u : Text) :
    trimmedLines (t ++ 10 :: u) = trimmedLines t ++ trimmedLines u := by
  rw [trimmedLines, lines, split_append_separator, List.map_append, List.filter_append]
  rfl

theorem trimmedLines_nil : trimmedLines [] = [] := by decide

theorem trimmedLines_blank_append {b : Text} (hb : b ∈ blanks) (t : Text) :
    trimmedLines (b ++ t) = trimmedLines t := by
  by_cases hnewline : b = [10]
  · subst hnewline
    exact trimmedLines_append_newline [] t
  have hb10 := newline_notMem_of_mem_blanks hb hnewline
  obtain ⟨l, ls, hl⟩ := List.exists_cons_of_ne_nil (lines_ne_nil t)
  have hfront : lines b = [] ++ [b] := split_of_notMem hb10
  have hboth : lines (b ++ t) = (b ++ l) :: ls := split_append hfront hl
  rw [trimmedLines, trimmedLines, hboth, hl, List.map_cons, List.map_cons, trim_blank_append hb]

theorem trimmedLines_append_blank {b : Text} (hb : b ∈ blanks) (t : Text) :
    trimmedLines (t ++ b) = trimmedLines t := by
  by_cases hnewline : b = [10]
  · subst hnewline
    rw [trimmedLines_append_newline, trimmedLines_nil, List.append_nil]
  have hb10 := newline_notMem_of_mem_blanks hb hnewline
  obtain ⟨ls, l, hl⟩ := split_eq_concat 10 t
  have hboth : lines (t ++ b) = ls ++ [l ++ b] := split_append hl (split_of_notMem hb10)
  rw [trimmedLines, trimmedLines, hboth, lines, hl, List.map_append, List.map_append,
    List.map_singleton, List.map_singleton, trim_append_blank hb]

/-- The two trims do not interact: the lines of a trimmed text are those of the text. -/
theorem trimmedLines_trim (t : Text) : trimmedLines (trim t) = trimmedLines t :=
  trim_keeps (fun _ hb => trimmedLines_blank_append hb) (fun _ hb => trimmedLines_append_blank hb) t

end Assembly.Text
