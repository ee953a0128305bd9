import Assembly.Script.Lexeme.Gap
import Assembly.Script.Lexeme.Number
import Assembly.Script.Lexeme.Quoted
import Assembly.Script.Token

/-!
# Cutting a script into tokens

Every token is read with the gap in front of it and with the one character behind it.
Characters that no script may have are noticed when they are read, so such a character
spoils the token in front of it.  Of several faults met while reading one token the one
noticed last counts, and the first token with a fault ends the reading.
-/

namespace Assembly.Script

/-- A token as it stands in the text: its kind, what follows it, and its last fault. -/
structure Lexeme where
  kind : TokenKind
  rest : List Glyph
  fault : Option Fault
deriving DecidableEq, Repr

namespace Lexeme

def ofSkip (kind : TokenKind) (s : List Glyph × Option Fault) : Lexeme := ⟨kind, s.1, s.2⟩

/-- The token that begins with `g`. -/
def read (eof : Pos) (g : Glyph) (r : List Glyph) : Lexeme :=
  let number : Lexeme :=
    let n := readNumber eof (g :: r)
    ⟨if n.isFloat then .float else .int, n.rest, n.fault⟩
  if g.startsName then ⟨.name, r.dropWhile Glyph.continuesName, none⟩
  else if g.isDecimal then number
  else if g.code = 34 then ofSkip .string (skipQuoted 34 eof .body r)
  else if g.code = 39 then ofSkip .char (skipQuoted 39 eof .body r)
  else if g.code = 96 then ofSkip .raw (skipRaw eof r)
  else if g.code = 46 ∧ (r.head?.any Glyph.isDecimal) then number
  else ⟨.mark, r, none⟩

end Lexeme

/-- The later of two faults, where `late` was noticed after `early` when both are at the
same character. -/
def laterFault (early late : Option Fault) : Option Fault :=
  match early, late with
  | some e, some l => if l.pos.offset < e.pos.offset then some e else some l
  | some e, none => some e
  | none, l => l

/-- The last fault among characters that have been read. -/
def lastReadFault (gs : List Glyph) : Option Fault := gs.reverse.findSome? Glyph.fault?

/-- The value of a token with the given text.  A literal between single quotes is read as
if it stood between double ones, and is a string if it has several characters. -/
def tokenOf (kind : TokenKind) (pos : Pos) (text : Text) : Except LexError Token :=
  match kind with
  | .string =>
    match Text.unquote? text with
    | some value => .ok ⟨.string, value, pos⟩
    | none => .error (.literal pos text)
  | .char =>
    let requoted := 34 :: ((text.drop 1).dropLast ++ [34])
    match Text.unquote? requoted with
    | some value => .ok ⟨if 1 < (Text.runes value).length then .string else .char, value, pos⟩
    | none => .error (.literal pos requoted)
  | .raw => .ok ⟨.raw, (text.drop 1).dropLast, pos⟩
  | kind => .ok ⟨kind, text, pos⟩

/-- Reads the gap at the front of `gs` and the token behind it, if there is one, with what
follows.  The first `seen` characters of `gs` have been looked at while the token before
them was read. -/
def readToken (eof : Pos) (seen : Nat) (gs : List Glyph) :
    Except LexError (Option Token × List Glyph) :=
  let (front, gapFault) := skipGap eof .outside gs
  let lexeme : Lexeme :=
    match front with
    | [] => ⟨.eof, [], none⟩
    | g :: r => Lexeme.read eof g r
  let looked := gs.take (gs.length - lexeme.rest.length + 1)
  match laterFault (lastReadFault (looked.drop seen)) (lexeme.fault.or gapFault) with
  | some f => .error (.fault f)
  | none =>
    match front with
    | [] => .ok (none, [])
    | g :: _ => do
      let text := Glyph.text (front.take (front.length - lexeme.rest.length))
      let token ← tokenOf lexeme.kind g.pos text
      pure (some token, lexeme.rest)

/-- Reads all tokens.  Every token takes a character, so as much fuel as there are
characters is enough. -/
def readTokens (eof : Pos) (seen : Nat) (gs : List Glyph) : Nat → Except LexError (List Token)
  | 0 => .ok []
  | fuel + 1 => do
    match ← readToken eof seen gs with
    | (none, _) => pure []
    | (some token, rest) => pure (token :: (← readTokens eof 1 rest fuel))

/-- A text without its byte order mark, if it begins with one. -/
def skipMark : List Glyph → List Glyph
  | g :: r => if g.code = 0xFEFF ∧ g.rune.valid then r else g :: r
  | [] => []

/-- The tokens of a script, and the token that stands for its end.  An empty text has its
end at no position. -/
def tokens (source : Text) : Except LexError (List Token × Token) := do
  let runes := Text.runes source
  let eof := Glyph.locateEnd .start runes
  let gs := skipMark (Glyph.locate .start runes)
  let ts ← readTokens eof 0 gs (gs.length + 1)
  let last : Pos := if source.isEmpty then .nowhere else eof
  pure (ts, ⟨.eof, [], last⟩)

end Assembly.Script
