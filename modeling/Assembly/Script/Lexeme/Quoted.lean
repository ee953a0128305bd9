import Assembly.Script.Source
import Assembly.Text.Quoted

/-!
# Quoted literals

A literal between double or single quotes ends on its line and may have escapes; the
reader only finds its end and checks that escapes have the right shape.  A literal between
backquotes has no escapes and may span lines.
-/

namespace Assembly.Script

/-- Where in a quoted literal the reader is: in its body, behind a backslash, or in front
of digits that an escape still needs. -/
inductive QuotedState
  | body
  | escape
  | digits (base left : Nat)
deriving DecidableEq, Repr

/-- What a character does: it ends the literal, breaks it off, or leads on. -/
inductive QuotedMove
  | close
  | broken
  | more (s : QuotedState)
deriving DecidableEq, Repr

/-- A character in the body of a literal. -/
def bodyMove (quote : Nat) (g : Glyph) : QuotedMove :=
  if g.code = quote then .close
  else if g.isNewline then .broken
  else if g.code = 92 then .more .escape
  else .more .body

/-- Characters that form an escape by themselves: `a b f n r t v`, the backslash and the
quote. -/
def isShortEscape (quote : Nat) (g : Glyph) : Bool :=
  g.code = quote || [97, 98, 102, 110, 114, 116, 118, 92].contains g.code

def isDigitOf (base : Nat) (g : Glyph) : Bool :=
  match Text.hexValue? g.code with
  | some d => d < base
  | none => false

/-- After a digit of an escape, `left` more are needed. -/
def digitsLeft (base left : Nat) : QuotedState := if left = 0 then .body else .digits base left

/-- What a character does, and whether it cuts an escape short.  A character that does so
is read as one of the body. -/
def quotedMove (quote : Nat) (s : QuotedState) (g : Glyph) : Bool × QuotedMove :=
  match s with
  | .body => (false, bodyMove quote g)
  | .escape =>
    if isShortEscape quote g then (false, .more .body)
    else if isDigitOf 8 g then (false, .more (.digits 8 2))
    else if g.code = 120 then (false, .more (.digits 16 2))
    else if g.code = 117 then (false, .more (.digits 16 4))
    else if g.code = 85 then (false, .more (.digits 16 8))
    else (true, bodyMove quote g)
  | .digits base left =>
    if isDigitOf base g then (false, .more (digitsLeft base (left - 1)))
    else (true, bodyMove quote g)

/-- What follows a literal after its opening quote, with the last fault in it.  A literal
that is broken off takes the newline with it. -/
def skipQuoted (quote : Nat) (eof : Pos) : QuotedState → List Glyph → List Glyph × Option Fault
  | _, [] => ([], some ⟨"literal not terminated", eof⟩)
  | s, g :: r =>
    let (short, move) := quotedMove quote s g
    let (rest, fault) : List Glyph × Option Fault :=
      match move with
      | .close => (r, none)
      | .broken => (r, some ⟨"literal not terminated", g.pos⟩)
      | .more s => skipQuoted quote eof s r
    (rest, fault.or (if short then some ⟨"invalid char escape", g.pos⟩ else none))

/-- What follows a literal between backquotes after its opening quote. -/
def skipRaw (eof : Pos) : List Glyph → List Glyph × Option Fault
  | [] => ([], some ⟨"literal not terminated", eof⟩)
  | g :: r => if g.code = 96 then (r, none) else skipRaw eof r

theorem skipQuoted_suffix (quote : Nat) (eof : Pos) (s : QuotedState) (gs : List Glyph) :
    (skipQuoted quote eof s gs).1 <:+ gs := by
  induction gs generalizing s with
  | nil => simp [skipQuoted]
  | cons g r ih =>
    rw [skipQuoted]
    cases h : quotedMove quote s g with
    | mk short move =>
      cases move with
      | close => exact List.suffix_cons g r
      | broken => exact List.suffix_cons g r
      | more s => exact (ih s).trans (List.suffix_cons g r)

theorem skipRaw_suffix (eof : Pos) (gs : List Glyph) : (skipRaw eof gs).1 <:+ gs := by
  induction gs with
  | nil => simp [skipRaw]
  | cons g r ih =>
    rw [skipRaw]
    split
    · exact List.suffix_cons g r
    · exact ih.trans (List.suffix_cons g r)

end Assembly.Script
