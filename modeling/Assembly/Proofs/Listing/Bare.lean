import Assembly.Listing
import Assembly.Proofs.Text.Lines

/-!
# Listings without colours

A line is an indentation, code and a comment, and its spans hold them in this order.  The code is
cut at blanks, and a blank behind which nothing follows is not put back: the only blank of the code,
or the second one behind a label, if it is the last byte.  So a listing without colours is the text
itself exactly if the code of no line ends in such a blank.
-/

namespace Assembly

namespace Text

/-- A cut takes out the first separator, if there is one. -/
theorem cut_cases (sep : UInt8) (t : Text) :
    (sep ∉ t ∧ cut sep t = (t, [])) ∨
      ∃ front rest, sep ∉ front ∧ t = front ++ sep :: rest ∧ cut sep t = (front, rest) := by
  induction t with
  | nil => exact .inl ⟨List.not_mem_nil, rfl⟩
  | cons c t ih =>
    by_cases hc : c = sep
    · subst hc
      exact .inr ⟨[], t, List.not_mem_nil, rfl, by simp [cut]⟩
    · have hcut : cut sep (c :: t) = (c :: (cut sep t).1, (cut sep t).2) := by simp [cut, hc]
      rw [hcut]
      rcases ih with ⟨hnot, hrest⟩ | ⟨front, rest, hfront, rfl, hrest⟩
      · exact .inl ⟨by simp [Ne.symm hc, hnot], by rw [hrest]⟩
      · exact .inr ⟨c :: front, rest, by simp [Ne.symm hc, hfront], rfl, by rw [hrest]⟩

theorem splitPair_ne_nil (a b : UInt8) (t : Text) : splitPair a b t ≠ [] := by
  fun_cases splitPair a b t <;> simp

theorem join_splitPair (a b : UInt8) (t : Text) : join [a, b] (splitPair a b t) = t := by
  fun_induction splitPair a b t with
  | case1 | case2 => rfl
  | case3 c d r h ih =>
    obtain ⟨rfl, rfl⟩ := h
    cases hr : splitPair c d r with
    | nil => exact absurd hr (splitPair_ne_nil c d r)
    | cons p ps =>
      rw [hr] at ih
      simp [join, ih]
  | case4 c d r _ hr => exact absurd hr (splitPair_ne_nil a b (d :: r))
  | case5 c d r _ p ps hr ih =>
    rw [hr] at ih
    rw [join_cons_cons, ih]

end Text

namespace Listing

open Text

/-! ## Spans and their text -/

/-- The text of spans, without colours. -/
def bareText (spans : List Span) : Text := spans.flatMap (·.text)

theorem renderLine_false_eq (spans : List Span) : renderLine false spans = bareText spans :=
  renderLine_false spans

@[simp] theorem bareText_nil : bareText [] = [] := rfl

@[simp] theorem bareText_cons (s : Span) (spans : List Span) :
    bareText (s :: spans) = s.text ++ bareText spans := rfl

@[simp] theorem bareText_append (spans spans' : List Span) :
    bareText (spans ++ spans') = bareText spans ++ bareText spans' := List.flatMap_append

@[simp] theorem text_plain (t : Text) : (Span.plain t).text = t := rfl

@[simp] theorem text_colored (c : Color) (t : Text) : (Span.colored c t).text = t := rfl

@[simp] theorem text_operandSpan (t : Text) : (operandSpan t).text = t := by
  rw [operandSpan]
  split
  · rfl
  · split
    · rfl
    · split <;> rfl

theorem bareText_separated (sep : Text) (spans : List Span) :
    bareText (separated sep spans) = join sep (spans.map (·.text)) := by
  fun_induction separated sep spans with
  | case1 => rfl
  | case2 s => simp [join]
  | case3 s t r ih =>
    rw [bareText_cons, bareText_cons, ih]
    rfl

theorem bareText_operands (t : Text) :
    bareText (separated ", " ((splitPair 44 32 t).map operandSpan)) = t := by
  have htexts : ((splitPair 44 32 t).map operandSpan).map (·.text) = splitPair 44 32 t := by
    rw [List.map_map]
    simp [Function.comp_def]
  rw [bareText_separated, htexts]
  exact join_splitPair 44 32 t

/-! ## Code -/

/-- The code ends in a blank behind which something could stand: its only blank, or the second one
behind a label.  A directive is not cut. -/
def losesBlank (code : Text) : Bool :=
  code.getLast? = some 32 && !isDirective (cut 32 code).1 &&
    (code.count 32 = 1 || (code.count 32 = 2 && endsInColon (cut 32 code).1))

/-- The code of a line as it is printed. -/
def keptCode (code : Text) : Text := if losesBlank code then code.dropLast else code

theorem losesBlank_of_getLast? {code : Text} (h : code.getLast? ≠ some 32) :
    losesBlank code = false := by
  simp [losesBlank, h]

theorem keptCode_of_getLast? {code : Text} (h : code.getLast? ≠ some 32) :
    keptCode code = code := by
  rw [keptCode, losesBlank_of_getLast? h]
  rfl

theorem getLast?_ne_of_notMem {t : Text} {c : UInt8} (h : c ∉ t) : t.getLast? ≠ some c :=
  fun hlast => h (List.mem_of_getLast? hlast)

theorem count_pos_of_getLast? {t : Text} {c : UInt8} (h : t.getLast? = some c) : 0 < t.count c :=
  List.count_pos_iff.mpr (List.mem_of_getLast? h)

section

variable {head rest : Text} (hhead : 32 ∉ head)
include hhead

theorem cut_head : cut 32 (head ++ 32 :: rest) = (head, rest) := by
  rcases cut_cases 32 (head ++ 32 :: rest) with ⟨hnot, -⟩ | ⟨front, tail, hfront, happ, hcut⟩
  · exact absurd (List.mem_append_right head List.mem_cons_self) hnot
  · have hsplit := congrArg (split 32) happ
    rw [split_append_cons hhead, split_append_cons hfront, List.cons.injEq] at hsplit
    obtain ⟨rfl, -⟩ := hsplit
    rw [hcut, List.cons_inj_right 32 |>.mp (List.append_cancel_left happ)]

theorem count_head : (head ++ 32 :: rest).count 32 = rest.count 32 + 1 := by
  rw [List.count_append, List.count_eq_zero_of_not_mem hhead, List.count_cons_self, Nat.zero_add]

/-- Code in which nothing follows the first blank. -/
theorem keptCode_head (hdir : isDirective head = false) : keptCode (head ++ [32]) = head := by
  have hloses : losesBlank (head ++ [32]) = true := by
    simp [losesBlank, cut_head hhead, count_head hhead, hdir]
  rw [keptCode, hloses]
  simp

/-- Code in which something follows the first blank: a blank at the end is a second one. -/
theorem losesBlank_behind (hrest : rest ≠ []) : losesBlank (head ++ 32 :: rest) =
    (rest.getLast? = some 32 && rest.count 32 = 1 && !isDirective head && endsInColon head) := by
  have hlast : (head ++ 32 :: rest).getLast? = rest.getLast? := by
    rw [List.getLast?_append, List.getLast?_cons, List.getLast?_eq_some_getLast hrest]
    rfl
  rw [losesBlank, cut_head hhead, count_head hhead, hlast]
  by_cases h : rest.getLast? = some 32
  · have hpos : rest.count 32 ≠ 0 := Nat.pos_iff_ne_zero.mp (count_pos_of_getLast? h)
    cases isDirective head <;> simp [h, hpos]
  · simp [h]

/-- No label stands in front, so the blank is kept. -/
theorem keptCode_operands (hcolon : endsInColon head = false) (hrest : rest ≠ []) :
    keptCode (head ++ 32 :: rest) = head ++ 32 :: rest := by
  rw [keptCode, losesBlank_behind hhead hrest, hcolon]
  simp

theorem keptCode_label (hdir : isDirective head = false) (hcolon : endsInColon head = true)
    (hrest : rest ≠ []) : keptCode (head ++ 32 :: rest) = head ++ 32 :: ((cut 32 rest).1 ++
      if (cut 32 rest).2.isEmpty then [] else 32 :: (cut 32 rest).2) := by
  rw [keptCode, losesBlank_behind hhead hrest, hdir, hcolon]
  rcases cut_cases 32 rest with ⟨hnot, hcut⟩ | ⟨directive, values, hdirective, rfl, hcut⟩
  · simp [hcut, getLast?_ne_of_notMem hnot]
  · rw [hcut, count_head hdirective]
    cases values with
    | nil =>
      have hsplit : head ++ 32 :: (directive ++ [32]) = (head ++ 32 :: directive) ++ [32] := by simp
      rw [hsplit, List.dropLast_concat]
      simp
    | cons c values =>
      -- A blank at the end is a third one.
      have hcount : (c :: values).getLast? = some 32 → (c :: values).count 32 ≠ 0 :=
        fun h => Nat.pos_iff_ne_zero.mp (count_pos_of_getLast? h)
      simpa using fun h hzero => absurd hzero (hcount h)

end

/-- The spans of code hold the code, but for a blank at its end that is lost. -/
theorem bareText_codeSpans (indented : Bool) (code : Text) :
    bareText (codeSpans indented code) = keptCode code := by
  rw [codeSpans]
  dsimp only
  split
  next hdir =>
    have hkeeps : losesBlank code = false := by simp [losesBlank, hdir]
    simp [keptCode, hkeeps]
  next hdir =>
  rw [Bool.not_eq_true] at hdir
  split
  next hlabel =>
    have hcolon : code.getLast? = some 58 := by
      simpa [endsInColon] using (Bool.and_eq_true_iff.mp hlabel).2
    rw [keptCode_of_getLast? (by rw [hcolon]; decide)]
    simp
  next =>
  -- The rest goes by the first blank of the code.
  rcases cut_cases 32 code with ⟨hnot, hcut⟩ | ⟨head, rest, hhead, rfl, hcut⟩
  · rw [hcut, keptCode_of_getLast? (getLast?_ne_of_notMem hnot)]
    split <;> simp
  rw [hcut] at hdir ⊢
  dsimp only at hdir ⊢
  cases hrest : rest with
  | nil =>
    rw [keptCode_head hhead hdir]
    split <;> simp
  | cons c r =>
    have hne : c :: r ≠ [] := List.cons_ne_nil c r
    split
    next hcolon =>
      rw [keptCode_label hhead hdir hcolon hne]
      simp only [List.isEmpty_cons, Bool.false_eq_true, if_false]
      split <;> simp [ofString] <;> rfl
    next hcolon =>
      rw [keptCode_operands hhead (by simpa using hcolon) hne]
      simp only [List.isEmpty_cons, Bool.false_eq_true, if_false, bareText_append,
        bareText_operands]
      simp
      rfl

/-! ## Lines -/

def isIndent (c : UInt8) : Bool := c = 32 || c = 9

def indentation (line : Text) : Text := line.takeWhile isIndent

/-- What stands between the indentation and the comment of a line. -/
def lineCode (line : Text) : Text := (splitComment (line.dropWhile isIndent)).1

def lineComment (line : Text) : Text := (splitComment (line.dropWhile isIndent)).2

theorem splitComment_append (t : Text) : (splitComment t).1 ++ (splitComment t).2 = t := by
  rw [splitComment]
  split
  · exact List.append_nil t
  · exact List.prefix_iff_eq_append.mp (List.takeWhile_prefix _)

theorem line_parts (line : Text) :
    indentation line ++ (lineCode line ++ lineComment line) = line := by
  rw [lineCode, lineComment, splitComment_append, indentation, List.takeWhile_append_dropWhile]

/-- A line as it is printed without colours. -/
def keptLine (line : Text) : Text :=
  indentation line ++ (keptCode (lineCode line) ++ lineComment line)

theorem bareText_lineSpans (line : Text) : bareText (lineSpans line) = keptLine line := by
  show bareText (if (line.dropWhile isIndent).isEmpty then [.plain line]
    else .plain (indentation line) :: codeSpans (!(indentation line).isEmpty) (lineCode line) ++
      (if (lineComment line).isEmpty then [] else [.colored .green (lineComment line)])) = _
  split
  next hbody =>
    -- A line of blanks has neither code nor a comment.
    have hnil : line.dropWhile isIndent = [] := List.isEmpty_iff.mp hbody
    have hcode : lineCode line = [] := by rw [lineCode, hnil]; rfl
    have hparts := line_parts line
    rw [hcode] at hparts
    rw [keptLine, hcode]
    exact (List.append_nil line).trans hparts.symm
  next =>
    have hcomment : bareText (if (lineComment line).isEmpty then [] else
        [.colored .green (lineComment line)]) = lineComment line := by
      split
      next hempty => exact (List.isEmpty_iff.mp hempty).symm
      next => exact List.append_nil _
    rw [bareText_append, bareText_cons, bareText_codeSpans, hcomment, keptLine, List.append_assoc]
    rfl

theorem keptCode_subset (code : Text) : keptCode code ⊆ code := by
  rw [keptCode]
  split
  · exact List.dropLast_subset code
  · exact List.Subset.refl code

theorem keptLine_subset (line : Text) : keptLine line ⊆ line := by
  intro c hc
  rw [← line_parts line]
  simp only [keptLine, List.mem_append] at hc ⊢
  exact hc.imp id fun h => h.imp (fun hcode => keptCode_subset _ hcode) id

theorem keptCode_eq_iff {code : Text} : keptCode code = code ↔ losesBlank code = false := by
  rw [keptCode]
  split
  next h =>
    have hne : code ≠ [] := by
      rintro rfl
      cases h
    refine ⟨fun heq => ?_, fun hkeeps => absurd (h.symm.trans hkeeps) (by decide)⟩
    have hlength := congrArg List.length heq
    have hpos := List.length_pos_iff.mpr hne
    rw [List.length_dropLast] at hlength
    omega
  next h => simpa using h

theorem keptLine_eq_iff {line : Text} :
    keptLine line = line ↔ losesBlank (lineCode line) = false := by
  rw [← keptCode_eq_iff]
  constructor
  · intro h
    rw [keptLine] at h
    exact List.append_cancel_right (List.append_cancel_left (h.trans (line_parts line).symm))
  · intro h
    rw [keptLine, h, line_parts]

/-! ## Listings -/

theorem colorize_false_eq (asm : Text) :
    colorize false asm = unlines ((lines asm).map keptLine) := by
  simp only [colorize, renderLine_false_eq, bareText_lineSpans]

/-- **Listings without colours.**  Every line is printed with its indentation, its code and its
comment, and the code with all its bytes but for a blank at its end that is the only one, or the
second one behind a label.  The listing is the text itself exactly if no line has such a blank. -/
theorem bare_listing_iff (asm : Text) :
    lines (colorize false asm) = (lines asm).map keptLine ∧
      (colorize false asm = asm ↔ ∀ line ∈ lines asm, losesBlank (lineCode line) = false) := by
  have hlines : lines (colorize false asm) = (lines asm).map keptLine := by
    rw [colorize_false_eq]
    refine lines_unlines_map asm fun line hline hc => ?_
    exact newline_notMem_of_mem_lines hline (keptLine_subset line hc)
  refine ⟨hlines, ?_⟩
  constructor
  · intro h line hline
    have hmap : (lines asm).map keptLine = (lines asm).map id := by
      rw [← hlines, h, List.map_id]
    exact keptLine_eq_iff.mp (List.map_inj_left.mp hmap line hline)
  · intro h
    have hmap : (lines asm).map keptLine = lines asm := by
      refine (List.map_inj_left.mpr fun line hline => ?_).trans (List.map_id _)
      exact keptLine_eq_iff.mpr (h line hline)
    rw [colorize_false_eq, hmap, unlines_lines]

/-- The blank in front of a comment is lost behind a mnemonic, and kept behind operands. -/
example : colorize false "nop ; a\nmov eax, 5 ; b" = "nop; a\nmov eax, 5 ; b" := by decide

end Listing

end Assembly
