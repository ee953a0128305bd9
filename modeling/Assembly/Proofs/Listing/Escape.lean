import Assembly.Proofs.Listing.Bare
import Assembly.Proofs.Text.Decimal

/-!
# Colours as escape sequences

A colour is switched on and off by escape sequences: the escape byte, an opening bracket, parameters
of digits and semicolons, and the letter `m`.  `strip` deletes all of them from a text.  A text that
has no escape byte itself is printed so that every escape byte begins a whole sequence, and no
sequence reaches into the text.  So stripping the coloured listing gives the listing without colours.
-/

namespace Assembly.Listing

open Text

/-! ## Escape sequences -/

/-- Digits and the semicolon. -/
def isParameter (c : UInt8) : Bool := isDigit c || c == 59

/-- What follows an escape sequence, if the text begins with one. -/
def afterSequence? : Text → Option Text
  | 27 :: 91 :: r =>
    match r.dropWhile isParameter with
    | 109 :: rest => some rest
    | _ => none
  | _ => none

theorem length_of_afterSequence? {t rest : Text} (h : afterSequence? t = some rest) :
    rest.length < t.length := by
  fun_cases afterSequence? t with
  | case1 r rest' hr =>
    rw [afterSequence?, hr] at h
    cases h
    have hle := (List.dropWhile_sublist isParameter (l := r)).length_le
    rw [hr, List.length_cons] at hle
    simp only [List.length_cons]
    omega
  | case2 | case3 => simp_all [afterSequence?]

/-- The text without its escape sequences. -/
def strip : Text → Text
  | [] => []
  | c :: r =>
    match _h : afterSequence? (c :: r) with
    | some rest => strip rest
    | none => c :: strip r
termination_by t => t.length
decreasing_by
  · exact length_of_afterSequence? _h
  · exact Nat.lt_succ_self _

/-- The first text is the second with escape sequences in it. -/
inductive Shows : Text → Text → Prop
  | nil : Shows [] []
  | byte {c : UInt8} {a t : Text} (hc : c ≠ 27) (h : Shows a t) : Shows (c :: a) (c :: t)
  | sequence {code a t : Text} (hcode : code.all isParameter) (h : Shows a t) :
    Shows (27 :: 91 :: (code ++ 109 :: a)) t

namespace Shows

variable {a b t u : Text}

theorem strip_eq (h : Shows a t) : strip a = t := by
  induction h with
  | nil => rw [strip]
  | byte hc h ih =>
    rename_i c a t
    have hnone : afterSequence? (c :: a) = none := by
      rw [afterSequence?.eq_def]
      split
      next heq => exact absurd (List.cons.inj heq).1 hc
      next => rfl
    rw [strip]
    split
    next hsome => exact absurd (hnone.symm.trans hsome) (by simp)
    next => rw [ih]
  | sequence hcode h ih =>
    rename_i code a t
    have hrest : (code ++ 109 :: a).dropWhile isParameter = 109 :: a := by
      rw [List.dropWhile_append_of_pos (List.all_eq_true.mp hcode)]
      rfl
    have hsome : afterSequence? (27 :: 91 :: (code ++ 109 :: a)) = some a := by
      rw [afterSequence?, hrest]
      rfl
    rw [strip]
    split
    next rest heq =>
      cases hsome.symm.trans heq
      exact ih
    next hnone => exact absurd (hsome.symm.trans hnone) (by simp)

theorem append (h : Shows a t) (h' : Shows b u) : Shows (a ++ b) (t ++ u) := by
  induction h with
  | nil => exact h'
  | byte hc _ ih => exact .byte hc ih
  | sequence hcode _ ih =>
    rename_i code a t _
    have hassoc : 27 :: 91 :: (code ++ 109 :: a) ++ b = 27 :: 91 :: (code ++ 109 :: (a ++ b)) := by
      simp
    rw [hassoc]
    exact .sequence hcode ih

theorem refl (h : 27 ∉ t) : Shows t t := by
  induction t with
  | nil => exact .nil
  | cons c t ih =>
    rw [List.mem_cons, not_or] at h
    exact .byte (Ne.symm h.1) (ih h.2)

theorem join {α : Type} {sep : Text} (hsep : 27 ∉ sep) {f g : α → Text} {xs : List α}
    (h : ∀ x ∈ xs, Shows (f x) (g x)) :
    Shows (Text.join sep (xs.map f)) (Text.join sep (xs.map g)) := by
  induction xs with
  | nil => exact .nil
  | cons x xs ih =>
    have hx := h x List.mem_cons_self
    cases xs with
    | nil => exact hx
    | cons y ys =>
      have hrest := ih fun z hz => h z (List.mem_cons_of_mem x hz)
      exact hx.append ((refl hsep).append hrest)

theorem render {s : Span} (h : 27 ∉ s.text) : Shows (s.render true) (s.render false) := by
  rw [Span.render_false]
  obtain ⟨color, t⟩ := s
  cases color with
  | none => exact refl h
  | some c =>
    have hcode : c.code.all isParameter := by cases c <;> decide
    have hoff : Shows (27 :: 91 :: ([48] ++ 109 :: [])) [] := .sequence (by decide) .nil
    have hon : Shows (27 :: 91 :: (c.code ++ 109 :: (t ++ 27 :: 91 :: ([48] ++ 109 :: []))))
        (t ++ []) :=
      .sequence hcode ((refl h).append hoff)
    rw [List.append_nil] at hon
    have htext : Span.render true ⟨some c, t⟩ =
        27 :: 91 :: (c.code ++ 109 :: (t ++ 27 :: 91 :: ([48] ++ 109 :: []))) := by
      show ([27, 91] ++ c.code ++ [109] ++ t ++ [27, 91, 48, 109] : Text) = _
      simp
    rw [htext]
    exact hon

theorem renderLine {spans : List Span} (h : 27 ∉ bareText spans) :
    Shows (Listing.renderLine true spans) (Listing.renderLine false spans) := by
  induction spans with
  | nil => exact .nil
  | cons s spans ih =>
    rw [bareText_cons, List.mem_append, not_or] at h
    exact (render h.1).append (ih h.2)

end Shows

/-! ## Lines -/

theorem newline_mem_of_render {colors : Bool} {s : Span} (h : 10 ∈ s.render colors) :
    10 ∈ s.text := by
  obtain ⟨color, t⟩ := s
  cases color with
  | none => exact h
  | some k =>
    cases colors with
    | false => exact h
    | true =>
      have hcode : 10 ∉ k.code := by cases k <;> decide
      have hmarks : 10 ∉ ofString "\x1b[" ∧ 10 ∉ ofString "m" ∧ 10 ∉ ofString "\x1b[0m" := by decide
      simpa [Span.render, hcode, hmarks] using h

theorem newline_notMem_renderLine {colors : Bool} {spans : List Span} (h : 10 ∉ bareText spans) :
    10 ∉ renderLine colors spans := by
  intro hc
  obtain ⟨s, hs, hmem⟩ := List.mem_flatMap.mp hc
  exact h (List.mem_flatMap.mpr ⟨s, hs, newline_mem_of_render hmem⟩)

/-- A line is printed on a line. -/
theorem lines_colorize (colors : Bool) (asm : Text) :
    lines (colorize colors asm) = (lines asm).map fun l => renderLine colors (lineSpans l) := by
  refine lines_unlines_map asm fun line hline => newline_notMem_renderLine fun hc => ?_
  rw [bareText_lineSpans] at hc
  exact newline_notMem_of_mem_lines hline (keptLine_subset line hc)

theorem length_lines_colorize (colors : Bool) (asm : Text) :
    (lines (colorize colors asm)).length = (lines asm).length := by
  rw [lines_colorize, List.length_map]

/-! ## Numbers -/

theorem mem_numberSpan {count index : Nat} {c : UInt8} (h : c ∈ (numberSpan count index).text) :
    c = 32 ∨ isDigit c := by
  have htext : (numberSpan count index).text =
      padLeft (ofNat count).length (ofNat (index + 1)) ++ [32] := rfl
  rw [htext, padLeft, List.mem_append, List.mem_append, List.mem_replicate, List.mem_singleton] at h
  rcases h with (⟨-, h⟩ | h) | h
  · exact .inl h
  · exact .inr (isDigit_of_mem_ofNat h)
  · exact .inl h

/-- A line with its number in front. -/
def numberedLine (colors : Bool) (count : Nat) (line : Text × Nat) : Text :=
  (numberSpan count line.2).render colors ++ line.1

theorem numbered_eq (colors : Bool) (text : Text) : numbered colors text =
    unlines ((lines text).zipIdx.map (numberedLine colors (lines text).length)) := rfl

/-- Numbers stand in front of lines, and every line stays one. -/
theorem lines_numbered (colors : Bool) (text : Text) : lines (numbered colors text) =
    (lines text).zipIdx.map (numberedLine colors (lines text).length) := by
  rw [numbered_eq]
  refine lines_unlines ?_ fun l hl => ?_
  · simpa using lines_ne_nil text
  obtain ⟨⟨line, index⟩, hmem, rfl⟩ := List.mem_map.mp hl
  intro hc
  rcases List.mem_append.mp hc with hc | hc
  · rcases mem_numberSpan (newline_mem_of_render hc) with h | h
    · cases h
    · cases h
  · exact newline_notMem_of_mem_lines (List.fst_mem_of_mem_zipIdx hmem) hc

theorem length_lines_numbered (colors : Bool) (text : Text) :
    (lines (numbered colors text)).length = (lines text).length := by
  rw [lines_numbered, List.length_map, List.length_zipIdx]

/-! ## Stripped listings -/

section

variable {asm : Text} (h : 27 ∉ asm)
include h

theorem shows_line {line : Text} (hline : line ∈ lines asm) :
    Shows (renderLine true (lineSpans line)) (renderLine false (lineSpans line)) := by
  refine .renderLine fun hc => h ?_
  rw [bareText_lineSpans] at hc
  exact (mem_of_mem_split hline (keptLine_subset line hc)).1

theorem shows_colorize : Shows (colorize true asm) (colorize false asm) :=
  .join (by decide) fun _ hline => shows_line h hline

theorem shows_numbered :
    Shows (numbered true (colorize true asm)) (numbered false (colorize false asm)) := by
  simp only [numbered_eq, lines_colorize, List.length_map, List.zipIdx_map, List.map_map]
  refine .join (by decide) fun x hx => ?_
  refine Shows.append (.render fun hc => ?_) (shows_line h (List.fst_mem_of_mem_zipIdx hx))
  rcases mem_numberSpan hc with h | h
  · cases h
  · cases h

end

/-- **Colours.**  Of a text without escape bytes, the coloured listing without its escape sequences
is the listing without colours, and the same holds of the listings with numbers.  Every listing has
as many lines as the text. -/
theorem strip_listing (asm : Text) (h : 27 ∉ asm) :
    strip (colorize true asm) = colorize false asm ∧
      strip (numbered true (colorize true asm)) = numbered false (colorize false asm) ∧
      ∀ colors, (lines (colorize colors asm)).length = (lines asm).length ∧
        (lines (numbered colors (colorize colors asm))).length = (lines asm).length := by
  refine ⟨(shows_colorize h).strip_eq, (shows_numbered h).strip_eq, fun colors => ?_⟩
  exact ⟨length_lines_colorize colors asm,
    (length_lines_numbered colors _).trans (length_lines_colorize colors asm)⟩

/-- A label, a datum, and an instruction with a comment. -/
def sampleListing : Text := "main:\nx: dd 0x1f\n    mov eax, [x] ; load\n"

theorem strip_listing_sample :
    27 ∉ sampleListing ∧
      strip (numbered true (colorize true sampleListing)) =
        "1 main:\n2 x: dd 0x1f\n3     mov eax, [x] ; load\n4 " :=
  have hplain : 27 ∉ sampleListing := by decide
  have hbare : numbered false (colorize false sampleListing) =
      "1 main:\n2 x: dd 0x1f\n3     mov eax, [x] ; load\n4 " := by decide +kernel
  ⟨hplain, (strip_listing sampleListing hplain).2.1.trans hbare⟩

end Assembly.Listing
