import Assembly.Text.Blank
import Assembly.Text.Rune

/-!
# Listings

Assembly text for the terminal: every line is cut into spans, which are printed in their
colours or bare.  A listing can have line numbers.

Blanks behind a label or a mnemonic that nothing follows are not part of any span.
-/

namespace Assembly.Listing

inductive Color
  | red | green | yellow | blue | magenta | cyan | boldYellow | gray | bold
deriving DecidableEq, Repr

/-- The parameters of the terminal's select-graphic-rendition sequence. -/
def Color.code : Color → Text
  | red => "31"
  | green => "32"
  | yellow => "33"
  | blue => "34"
  | magenta => "35"
  | cyan => "36"
  | boldYellow => "1;33"
  | gray => "38;5;244"
  | bold => "1"

/-- A piece of a line, coloured or not. -/
structure Span where
  color : Option Color
  text : Text
deriving DecidableEq, Repr

namespace Span

def plain (t : Text) : Span := ⟨none, t⟩

def colored (c : Color) (t : Text) : Span := ⟨some c, t⟩

/-- The span as it is printed.  Also an empty coloured span has its escape sequences. -/
def render (colors : Bool) (s : Span) : Text :=
  match s.color with
  | some c => if colors then "\x1b[" ++ c.code ++ "m" ++ s.text ++ "\x1b[0m" else s.text
  | none => s.text

@[simp] theorem render_false (s : Span) : s.render false = s.text := by
  cases s with
  | mk c t => cases c <;> rfl

end Span

/-! ## Words -/

/-- The names of the registers, the vector registers apart. -/
def registerNames : List Text :=
  ((["a", "b", "c", "d"].flatMap fun c =>
      ["r" ++ c ++ "x", "e" ++ c ++ "x", c ++ "x", c ++ "l", c ++ "h"]) ++
    (["s", "d"].flatMap fun c => ["r" ++ c ++ "i", "e" ++ c ++ "i", c ++ "i", c ++ "il"]) ++
    (["s", "b"].flatMap fun c => ["r" ++ c ++ "p", "e" ++ c ++ "p", c ++ "p", c ++ "pl"]) ++
    (["8", "9", "10", "11", "12", "13", "14", "15"].flatMap fun n =>
      ["r" ++ n, "r" ++ n ++ "b", "r" ++ n ++ "w", "r" ++ n ++ "d"]) ++
    ["st", "st0", "st1", "st2", "st3", "st4", "st5", "st6", "st7"]).map Text.ofString

/-- Whether the text is digits only, at least one. -/
def isDigits (t : Text) : Bool := !t.isEmpty && t.all Text.isDigit

def isRegisterName (t : Text) : Bool :=
  registerNames.contains t || ((Text.after? "xmm" t).any isDigits)

/-- A decimal number: a digit, then digits and points. -/
def isDecimal : Text → Bool
  | c :: r => Text.isDigit c && r.all fun c => Text.isDigit c || c = 46
  | [] => false

def isHexDigit (c : UInt8) : Bool :=
  Text.isDigit c || (97 ≤ c && c ≤ 102) || (65 ≤ c && c ≤ 70)

/-- A character between single quotes. -/
def isCharLiteral (t : Text) : Bool :=
  match Text.runes t with
  | [a, _, b] => a.code = 39 && b.code = 39
  | _ => false

def isNumber (t : Text) : Bool :=
  isDecimal t || ((Text.after? "-" t).any isDecimal) ||
    ((Text.after? "0x" t).any fun r => !r.isEmpty && r.all isHexDigit) || isCharLiteral t

def isDirective (t : Text) : Bool :=
  (["bits", "section", "global", "extern"].map Text.ofString).contains t

/-! ## Lines -/

/-- The colour of an operand goes by its text without the blanks around it. -/
def operandSpan (t : Text) : Span :=
  let word := Text.trim t
  if word.contains 91 then .colored .magenta t
  else if isRegisterName word then .colored .red t
  else if isNumber word then .colored .yellow t
  else .colored .cyan t

/-- Spans with `sep` between neighbours. -/
def separated (sep : Text) : List Span → List Span
  | [] => []
  | [s] => [s]
  | s :: t :: r => s :: .plain sep :: separated sep (t :: r)

/-- A line without its comment, and the comment.  A semicolon behind a quote begins no
comment. -/
def splitComment (t : Text) : Text × Text :=
  let code := t.takeWhile (· != 59)
  if Text.hasAny "\"'" code then (t, []) else (code, t.drop code.length)

def endsInColon (t : Text) : Bool := t.getLast? = some 58

/-- The spans of a line's code behind its indentation. -/
def codeSpans (indented : Bool) (code : Text) : List Span :=
  let (head, rest) := Text.cut 32 code
  if isDirective head then [.colored .cyan code]
  else if !indented && endsInColon code then [.colored .boldYellow code]
  else if endsInColon head then
    if rest.isEmpty then [.colored .yellow head]
    else
      let (directive, values) := Text.cut 32 rest
      [.colored .green head, .plain " ", .colored .blue directive] ++
        (if values.isEmpty then [] else [.plain (32 :: values)])
  else if rest.isEmpty then [.colored .blue head]
  else
    [.colored .blue head, .plain " "] ++
      separated ", " ((Text.splitPair 44 32 rest).map operandSpan)

/-- The spans of a line. -/
def lineSpans (line : Text) : List Span :=
  let isIndent (c : UInt8) : Bool := c = 32 || c = 9
  let indent := line.takeWhile isIndent
  let body := line.dropWhile isIndent
  if body.isEmpty then [.plain line]
  else
    let (code, comment) := splitComment body
    .plain indent :: codeSpans (!indent.isEmpty) code ++
      (if comment.isEmpty then [] else [.colored .green comment])

def renderLine (colors : Bool) (spans : List Span) : Text := spans.flatMap (·.render colors)

/-- Without colours a line is the text of its spans. -/
theorem renderLine_false (spans : List Span) :
    renderLine false spans = spans.flatMap (·.text) := by
  simp [renderLine]

/-- The text with its parts in colour. -/
def colorize (colors : Bool) (asm : Text) : Text :=
  Text.unlines ((Text.lines asm).map fun l => renderLine colors (lineSpans l))

/-- The number in front of a line, as wide as the last number. -/
def numberSpan (count index : Nat) : Span :=
  .colored .gray (Text.padLeft (Text.ofNat count).length (Text.ofNat (index + 1)) ++ " ")

/-- The text with its lines numbered from one. -/
def numbered (colors : Bool) (asm : Text) : Text :=
  let lines := Text.lines asm
  Text.unlines (lines.zipIdx.map fun (l, i) => (numberSpan lines.length i).render colors ++ l)

end Assembly.Listing
