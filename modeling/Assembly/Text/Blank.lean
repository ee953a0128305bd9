import Assembly.Text

/-!
# Blank characters

The characters with the Unicode property White_Space, as the byte sequences that write
them.  Their lead bytes are never continuation bytes, so a text ends with a blank
exactly when it ends with one of these sequences, and both ends are trimmed by bytes.
-/

namespace Assembly.Text

/-- The blanks of one byte: tab, line feed, vertical tab, form feed, carriage return, space. -/
def isAsciiBlank (c : UInt8) : Bool := (9 ≤ c && c ≤ 13) || c == 32

/-- The last byte of a blank that begins with E2 80: the spaces U+2000 to U+200A, the line
and paragraph separators, and the narrow no-break space. -/
def endsWideBlank (c : UInt8) : Bool :=
  (0x80 ≤ c && c ≤ 0x8A) || c == 0xA8 || c == 0xA9 || c == 0xAF

/-- The text without the blanks in front. -/
def trimLeft : Text → Text
  | [] => []
  | 0xC2 :: 0x85 :: r => trimLeft r
  | 0xC2 :: 0xA0 :: r => trimLeft r
  | 0xE1 :: 0x9A :: 0x80 :: r => trimLeft r
  | 0xE2 :: 0x81 :: 0x9F :: r => trimLeft r
  | 0xE3 :: 0x80 :: 0x80 :: r => trimLeft r
  | 0xE2 :: 0x80 :: c :: r => if endsWideBlank c then trimLeft r else 0xE2 :: 0x80 :: c :: r
  | c :: r => if isAsciiBlank c then trimLeft r else c :: r

/-- `trimLeft` for a text whose bytes are in reverse order. -/
def trimReversed : Text → Text
  | [] => []
  | 0x85 :: 0xC2 :: r => trimReversed r
  | 0xA0 :: 0xC2 :: r => trimReversed r
  | 0x80 :: 0x9A :: 0xE1 :: r => trimReversed r
  | 0x9F :: 0x81 :: 0xE2 :: r => trimReversed r
  | 0x80 :: 0x80 :: 0xE3 :: r => trimReversed r
  | c :: 0x80 :: 0xE2 :: r =>
    if endsWideBlank c then trimReversed r
    else if isAsciiBlank c then trimReversed (0x80 :: 0xE2 :: r)
    else c :: 0x80 :: 0xE2 :: r
  | c :: r => if isAsciiBlank c then trimReversed r else c :: r

/-- The text without the blanks behind. -/
def trimRight (t : Text) : Text := (trimReversed t.reverse).reverse

/-- The text without the blanks at either end. -/
def trim (t : Text) : Text := trimRight (trimLeft t)

/-- Blank code points. -/
def isBlankCode (code : Nat) : Bool :=
  (9 ≤ code && code ≤ 13) || code == 0x20 || code == 0x85 || code == 0xA0 || code == 0x1680 ||
    (0x2000 ≤ code && code ≤ 0x200A) || code == 0x2028 || code == 0x2029 || code == 0x202F ||
    code == 0x205F || code == 0x3000

end Assembly.Text
