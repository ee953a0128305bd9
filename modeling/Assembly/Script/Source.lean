import Assembly.Text.Digit
import Assembly.Text.Letter
import Assembly.Text.Rune

/-!
# Positions in a source text

A source text is read as characters, each with its position: the byte offset from zero,
the line and the column in characters from one.  A newline ends its line and is the last
character on it.
-/

namespace Assembly.Script

structure Pos where
  offset : Nat
  line : Nat
  column : Nat
deriving DecidableEq, Repr

namespace Pos

/-- Where a text begins. -/
def start : Pos := ⟨0, 1, 1⟩

/-- The position that belongs to no character. -/
def nowhere : Pos := ⟨0, 0, 0⟩

/-- The position behind a character. -/
def after (p : Pos) (c : Rune) : Pos :=
  if c.code = 10 then ⟨p.offset + c.bytes.length, p.line + 1, 1⟩
  else ⟨p.offset + c.bytes.length, p.line, p.column + 1⟩

end Pos

/-- A character with its position. -/
structure Glyph where
  rune : Rune
  pos : Pos
deriving DecidableEq, Repr

namespace Glyph

def code (g : Glyph) : Nat := g.rune.code

/-- Characters with their positions, the first at `p`. -/
def locate (p : Pos) : List Rune → List Glyph
  | [] => []
  | c :: r => ⟨c, p⟩ :: locate (p.after c) r

/-- The position behind the characters, the first of which is at `p`. -/
def locateEnd (p : Pos) : List Rune → Pos
  | [] => p
  | c :: r => locateEnd (p.after c) r

/-- The bytes of characters. -/
def text (gs : List Glyph) : Text := gs.flatMap (·.rune.bytes)

/-! ## Classes -/

def isNewline (g : Glyph) : Bool := g.code = 10

/-- The characters between tokens: tab, newline, carriage return, space. -/
def isBlank (g : Glyph) : Bool := g.code = 9 || g.code = 10 || g.code = 13 || g.code = 32

def isDecimal (g : Glyph) : Bool := 48 ≤ g.code && g.code ≤ 57

def isUnderscore (g : Glyph) : Bool := g.code = 95

def startsName (g : Glyph) : Bool := g.isUnderscore || Text.isLetter g.code

def continuesName (g : Glyph) : Bool := g.startsName || Text.isDigitCode g.code

end Glyph

/-- What is wrong with a source text, and where. -/
structure Fault where
  message : Text
  pos : Pos
deriving DecidableEq, Repr

/-- The fault of a character that no source text may have. -/
def Glyph.fault? (g : Glyph) : Option Fault :=
  if ¬ g.rune.valid then some ⟨"invalid UTF-8 encoding", g.pos⟩
  else if g.code = 0 then some ⟨"invalid character NUL", g.pos⟩
  else none

/-- The position of the next character, or of the end of the text. -/
def nextPos (eof : Pos) : List Glyph → Pos
  | [] => eof
  | g :: _ => g.pos

end Assembly.Script
