import Assembly.Numeral
import Assembly.Script.Source

/-!
# Number literals

Integers in decimal, binary, octal and hexadecimal notation and floating-point numbers in
decimal and hexadecimal notation.  The reader takes the longest text that looks like a
number and then says what is wrong with it; of several faults the last counts.
-/

namespace Assembly.Script

/-- The notations of a number, by the prefix they have.  A leading zero alone makes an
integer octal. -/
inductive Radix
  | decimal | leadingZero | octal | binary | hexadecimal
deriving DecidableEq, Repr

namespace Radix

def base : Radix → Nat
  | decimal => 10
  | leadingZero => 8
  | octal => 8
  | binary => 2
  | hexadecimal => 16

def text : Radix → Text
  | decimal => "decimal literal"
  | leadingZero => "octal literal"
  | octal => "octal literal"
  | binary => "binary literal"
  | hexadecimal => "hexadecimal literal"

/-- Characters that a number of the notation takes for digits.  A digit too large for the
base is taken too, and is a fault afterwards. -/
def takes (r : Radix) (g : Glyph) : Bool :=
  if r = hexadecimal then (Text.hexValue? g.code).isSome else g.isDecimal

end Radix

def isLetterPair (lower : Nat) (g : Glyph) : Bool := g.code = lower || g.code + 32 = lower

/-- The notation of a number and what follows its prefix.  The zero of a number with a
leading zero is not taken off, so that it counts as a digit. -/
def readRadix : List Glyph → Radix × List Glyph
  | g :: h :: r =>
    if g.code ≠ 48 then (.decimal, g :: h :: r)
    else if isLetterPair 120 h then (.hexadecimal, r)
    else if isLetterPair 111 h then (.octal, r)
    else if isLetterPair 98 h then (.binary, r)
    else (.leadingZero, g :: h :: r)
  | [g] => (if g.code = 48 then .leadingZero else .decimal, [g])
  | [] => (.decimal, [])

/-- Digits and underscores, and what follows them. -/
def readDigits (isDigit : Glyph → Bool) (gs : List Glyph) : List Glyph × List Glyph :=
  let isMark g := isDigit g || g.isUnderscore
  (gs.takeWhile isMark, gs.dropWhile isMark)

/-- A number literal: whether it is floating, what follows it, and its last fault. -/
structure NumberLexeme where
  isFloat : Bool
  rest : List Glyph
  fault : Option Fault
deriving DecidableEq, Repr

/-- The fraction behind a point, if there is one. -/
def readFraction (radix : Radix) : List Glyph → Option (List Glyph) × List Glyph
  | g :: r =>
    if g.code = 46 then
      let (digits, rest) := readDigits radix.takes r
      (some digits, rest)
    else (none, g :: r)
  | [] => (none, [])

/-- The exponent, if there is one: its letter, its digits, and what follows. -/
def readExponent : List Glyph → Option (Glyph × List Glyph) × List Glyph
  | e :: r =>
    if isLetterPair 101 e || isLetterPair 112 e then
      let unsigned := match r with
        | s :: q => if s.code = 43 ∨ s.code = 45 then q else s :: q
        | [] => []
      let (digits, rest) := readDigits Glyph.isDecimal unsigned
      (some (e, digits), rest)
    else (none, e :: r)
  | [] => (none, [])

def hasDigit (gs : List Glyph) : Bool := gs.any fun g => !g.isUnderscore

/-- The fault of an exponent's letter in a notation that has another. -/
def exponentFault? (radix : Radix) (e : Glyph) : Option Text :=
  let named (t : Text) : Text := 39 :: (e.rune.bytes ++ 39 :: t)
  if isLetterPair 101 e then
    if radix = .decimal ∨ radix = .leadingZero then none
    else some (named " exponent requires decimal mantissa")
  else if radix = .hexadecimal then none
  else some (named " exponent requires hexadecimal mantissa")

/-- Reads a number, which begins with a digit, or with a point that a digit follows. -/
def readNumber (eof : Pos) (gs : List Glyph) : NumberLexeme :=
  let (radix, body) := readRadix gs
  let (whole, afterWhole) := readDigits radix.takes body
  let (fraction, afterFraction) := readFraction radix afterWhole
  let (exponent, rest) := readExponent afterFraction
  let digits := whole ++ fraction.getD []
  let isFloat := fraction.isSome || exponent.isSome
  let here := nextPos eof rest
  let radixPoint : Option Fault :=
    if fraction.isSome ∧ (radix = .octal ∨ radix = .binary) then
      some ⟨"invalid radix point in " ++ radix.text, nextPos eof (afterWhole.drop 1)⟩
    else none
  let noDigits : Option Fault :=
    if hasDigit digits then none
    else some ⟨radix.text ++ " has no digits", nextPos eof afterFraction⟩
  let exponentKind : Option Fault :=
    exponent.bind fun (e, _) => (exponentFault? radix e).map (⟨·, e.pos⟩)
  let exponentDigits : Option Fault :=
    match exponent with
    | some (_, ds) => if hasDigit ds then none else some ⟨"exponent has no digits", here⟩
    | none =>
      if radix = .hexadecimal ∧ fraction.isSome then
        some ⟨"hexadecimal mantissa requires a 'p' exponent", here⟩
      else none
  let badDigit : Option Fault :=
    if isFloat then none
    else
      (whole.find? fun g => g.isDecimal && radix.base ≤ g.code - 48).map fun g =>
        ⟨"invalid digit '" ++ g.rune.bytes ++ "' in " ++ radix.text, here⟩
  let separators : Option Fault :=
    if Numeral.separatorsOk (Glyph.text (gs.take (gs.length - rest.length))) then none
    else some ⟨"'_' must separate successive digits", here⟩
  { isFloat := isFloat
    rest := rest
    fault := separators.or (badDigit.or (exponentDigits.or (exponentKind.or
      (noDigits.or radixPoint)))) }

end Assembly.Script
