import Assembly.Script.Source

/-!
# Gaps between tokens

Blanks and comments.  A comment runs from `//` to the end of its line, or from `/*` to the
next `*/`.
-/

namespace Assembly.Script

/-- Where in a gap the reader is; `star` is behind an asterisk in a block comment. -/
inductive GapState
  | outside | line | block | star
deriving DecidableEq, Repr

/-- What follows a gap, with the fault of a block comment that never ends. -/
def skipGap (eof : Pos) : GapState → List Glyph → List Glyph × Option Fault
  | .outside, [] => ([], none)
  | .line, [] => ([], none)
  | .block, [] => ([], some ⟨"comment not terminated", eof⟩)
  | .star, [] => ([], some ⟨"comment not terminated", eof⟩)
  | .outside, g :: r =>
    if g.isBlank then skipGap eof .outside r
    else if g.code = 47 then
      match r with
      | [] => ([g], none)
      | h :: r =>
        if h.code = 47 then skipGap eof .line r
        else if h.code = 42 then skipGap eof .block r
        else (g :: h :: r, none)
    else (g :: r, none)
  | .line, g :: r => if g.isNewline then skipGap eof .outside r else skipGap eof .line r
  | .block, g :: r => skipGap eof (if g.code = 42 then .star else .block) r
  | .star, g :: r =>
    if g.code = 47 then skipGap eof .outside r
    else skipGap eof (if g.code = 42 then .star else .block) r

/-- What follows a gap is the end of the text it was found in. -/
theorem skipGap_suffix (eof : Pos) (s : GapState) (gs : List Glyph) :
    (skipGap eof s gs).1 <:+ gs := by
  fun_induction skipGap eof s gs with
  | case1 => simp
  | case2 => simp
  | case3 => simp
  | case4 => simp
  | case5 g r _ ih => exact ih.trans (List.suffix_cons g r)
  | case6 => simp
  | case7 g _ _ c r _ ih =>
    exact ih.trans ((List.suffix_cons c r).trans (List.suffix_cons g _))
  | case8 g _ _ c r _ _ ih =>
    exact ih.trans ((List.suffix_cons c r).trans (List.suffix_cons g _))
  | case9 => simp
  | case10 => simp
  | case11 g r _ ih => exact ih.trans (List.suffix_cons g r)
  | case12 g r _ ih => exact ih.trans (List.suffix_cons g r)
  | case13 g r ih => exact ih.trans (List.suffix_cons g r)
  | case14 g r _ ih => exact ih.trans (List.suffix_cons g r)
  | case15 g r _ ih => exact ih.trans (List.suffix_cons g r)

end Assembly.Script
