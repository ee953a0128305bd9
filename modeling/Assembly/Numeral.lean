import Assembly.Text.Quoted

/-!
# Numerals

Texts that spell numbers: decimal and hexadecimal floating-point notation with an
optional sign, the words for infinity and not-a-number, and single underscores between
digits.  A numeral keeps the exact value of its spelling; rounding is a later matter.
-/

namespace Assembly

/-- What a numeral denotes: a finite number `mantissa * radix ^ exponent` with a sign,
an infinity, or no number at all. -/
inductive Numeral
  | finite (negative : Bool) (mantissa radix : Nat) (exponent : Int)
  | infinite (negative : Bool)
  | nan
deriving DecidableEq, Repr

namespace Numeral

open Text

/-! ## Digits and separators -/

def isHexDigit (c : UInt8) : Bool := (hexValue? c.toNat).isSome

/-- Every underscore stands behind a digit and in front of one.  `behind` tells whether
the byte before the text is a digit. -/
def separated (isDigit : UInt8 → Bool) : Bool → Text → Bool
  | _, [] => true
  | behind, 95 :: r => behind && (r.head?.any isDigit) && separated isDigit false r
  | _, c :: r => separated isDigit (isDigit c) r

/-- Underscores in an unsigned numeral stand between digits only, where the letter of a
base prefix counts as a digit. -/
def separatorsOk : Text → Bool
  | 48 :: c :: r =>
    if c = 120 ∨ c = 88 then separated isHexDigit true r
    else if c = 111 ∨ c = 79 ∨ c = 98 ∨ c = 66 then separated isDigit true r
    else separated isDigit true (c :: r)
  | t => separated isDigit false t

/-- The number written by digits of the base, underscores skipped. -/
def magnitude (base : Nat) (digits : Text) : Nat :=
  (digits.filter (· != 95)).foldl (fun n c => n * base + (hexValue? c.toNat).getD 0) 0

/-- The number of digits, underscores not counted. -/
def digitCount (digits : Text) : Nat := (digits.filter (· != 95)).length

/-! ## Notation -/

/-- The digits before and after the point, and what follows them. -/
def mantissaParts (isDigit : UInt8 → Bool) (t : Text) : Text × Text × Text :=
  let isMark c := isDigit c || c == 95
  match t.dropWhile isMark with
  | 46 :: r => (t.takeWhile isMark, r.takeWhile isMark, r.dropWhile isMark)
  | rest => (t.takeWhile isMark, [], rest)

/-- An exponent after its letter.  Of an exponent of more than five digits only the first
five count; whatever they are, the number is then out of every range. -/
def exponent? (t : Text) : Option Int :=
  match t with
  | 43 :: r => unsigned r
  | 45 :: r => (unsigned r).map (- ·)
  | r => unsigned r
where
  unsigned (r : Text) : Option Int :=
    if r.head?.any isDigit ∧ r.all (fun c => isDigit c || c == 95) then
      some ((r.filter (· != 95)).foldl
        (fun (e : Nat) c => if e < 10000 then e * 10 + digitValue c else e) 0 : Nat)
    else none

/-- A number in decimal notation; the exponent may be missing. -/
def decimal? (negative : Bool) (t : Text) : Option Numeral :=
  let (whole, fraction, rest) := mantissaParts isDigit t
  let mantissa := magnitude 10 (whole ++ fraction)
  let scale : Int := digitCount fraction
  if digitCount (whole ++ fraction) = 0 then none
  else
    match rest with
    | [] => some (.finite negative mantissa 10 (-scale))
    | c :: r =>
      if c = 101 ∨ c = 69 then (exponent? r).map fun e => .finite negative mantissa 10 (e - scale)
      else none

/-- A number in hexadecimal notation after the prefix; it needs a binary exponent. -/
def hexadecimal? (negative : Bool) (t : Text) : Option Numeral :=
  let (whole, fraction, rest) := mantissaParts isHexDigit t
  let mantissa := magnitude 16 (whole ++ fraction)
  let scale : Int := 4 * digitCount fraction
  if digitCount (whole ++ fraction) = 0 then none
  else
    match rest with
    | c :: r =>
      if c = 112 ∨ c = 80 then (exponent? r).map fun e => .finite negative mantissa 2 (e - scale)
      else none
    | [] => none

/-- A finite number after its sign. -/
def finite? (negative : Bool) (t : Text) : Option Numeral :=
  if ¬ separatorsOk t then none
  else
    match t with
    | 48 :: 120 :: c :: r => hexadecimal? negative (c :: r)
    | 48 :: 88 :: c :: r => hexadecimal? negative (c :: r)
    | _ => decimal? negative t

/-- The text in lower case, ASCII letters only. -/
def asciiLower (t : Text) : Text := t.map fun c => if 65 ≤ c ∧ c ≤ 90 then c + 32 else c

def isInfinityWord (t : Text) : Bool :=
  asciiLower t == ofString "inf" || asciiLower t == ofString "infinity"

/-- The numeral that a text spells.  Infinity may have a sign, not-a-number has none. -/
def ofText? (t : Text) : Option Numeral :=
  match t with
  | 43 :: r => signed false r
  | 45 :: r => signed true r
  | r => if asciiLower r == ofString "nan" then some .nan else signed false r
where
  signed (negative : Bool) (r : Text) : Option Numeral :=
    if isInfinityWord r then some (.infinite negative) else finite? negative r

/-! ## Range -/

/-- The least number that rounds to infinity in the 64-bit floating-point format. -/
def overflowBound : Nat := Nat.pow 2 1024 - Nat.pow 2 970

/-- Whether `mantissa * radix ^ exponent` is less than `bound`. -/
def isBelow (mantissa radix : Nat) (exponent : Int) (bound : Nat) : Bool :=
  match exponent with
  | .ofNat e => mantissa * Nat.pow radix e < bound
  | .negSucc e => mantissa < bound * Nat.pow radix (e + 1)

/-- Whether the number is finite in the 64-bit floating-point format, or was written as
infinity or not-a-number. -/
def inRange : Numeral → Bool
  | .finite _ mantissa radix exponent => isBelow mantissa radix exponent overflowBound
  | _ => true

end Numeral

end Assembly
