import Assembly.Numeral

/-!
# The 64-bit floating-point format

A finite number of the format is `mantissa * 2 ^ exponent` with a mantissa of at most 53
bits and an exponent of at least -1074.  Numerals are rounded to the nearest number, a
tie to the even mantissa, in exact arithmetic of natural numbers.

`shortest` is the shortest decimal that rounds back: the decimal grids of one digit, two
digits and so on are tried in turn, and on the first grid that has a point inside the
rounding interval the point nearest to the number is taken, a tie to the even digit.
-/

namespace Assembly

/-- A value of the format. -/
inductive Binary64
  | finite (negative : Bool) (mantissa : Nat) (exponent : Int)
  | infinite (negative : Bool)
  | nan
deriving DecidableEq, Repr

namespace Binary64

/-! ## Rounding -/

/-- The quotient rounded to the nearest integer, a tie to the even one. -/
def roundDiv (num den : Nat) : Nat :=
  let q := num / den
  let r := num % den
  if 2 * r < den then q
  else if den < 2 * r then q + 1
  else if q % 2 = 0 then q
  else q + 1

/-- `num / den * 2 ^ (-e)` as a pair of numerator and denominator. -/
def scaled (num den : Nat) : Int → Nat × Nat
  | .ofNat e => (num, den * Nat.pow 2 e)
  | .negSucc e => (num * Nat.pow 2 (e + 1), den)

/-- The exponent of the last place of a number `num / den`: 53 bits in front of it, but
never below -1074. -/
def lastPlace (num den : Nat) : Int :=
  let guess : Int := (num.log2 : Int) - (den.log2 : Int) - 53
  let (n, d) := scaled num den guess
  max (if n < Nat.pow 2 53 * d then guess else guess + 1) (-1074)

/-- The number of the format nearest to `num / den`. -/
def ofRatio (negative : Bool) (num den : Nat) : Binary64 :=
  if num = 0 then .finite negative 0 (-1074)
  else
    let e := lastPlace num den
    let (n, d) := scaled num den e
    let m := roundDiv n d
    let (m, e) := if m = Nat.pow 2 53 then (Nat.pow 2 52, e + 1) else (m, e)
    if 971 < e then .infinite negative else .finite negative m e

/-- The number of the format nearest to a numeral. -/
def ofNumeral : Numeral → Binary64
  | .finite negative mantissa radix (.ofNat e) => ofRatio negative (mantissa * Nat.pow radix e) 1
  | .finite negative mantissa radix (.negSucc e) =>
    ofRatio negative mantissa (Nat.pow radix (e + 1))
  | .infinite negative => .infinite negative
  | .nan => .nan

/-! ## Shortest decimals -/

/-- A decimal `digits * 10 ^ exponent`. -/
structure Decimal where
  digits : Nat
  exponent : Int
deriving DecidableEq, Repr

/-- The rounding interval of a positive number, as three numerators over one denominator:
its lower end, the number itself, its upper end, and whether the ends belong to it. -/
structure Interval where
  low : Nat
  mid : Nat
  high : Nat
  den : Nat
  closed : Bool

/-- The reals that round to `mantissa * 2 ^ exponent`.  Below a power of two the
neighbours are half as far away. -/
def interval (mantissa : Nat) (exponent : Int) : Interval :=
  let near := if mantissa = Nat.pow 2 52 ∧ -1074 < exponent then 1 else 2
  let (unit, den) := match exponent - 2 with
    | .ofNat e => (Nat.pow 2 e, 1)
    | .negSucc e => (1, Nat.pow 2 (e + 1))
  ⟨(4 * mantissa - near) * unit, 4 * mantissa * unit, (4 * mantissa + 2) * unit, den,
    mantissa % 2 = 0⟩

/-- Whether `p * 10 ^ k` lies in the interval. -/
def Interval.holds (i : Interval) (p : Nat) (k : Int) : Bool :=
  let (num, den) := match k with
    | .ofNat e => (p * Nat.pow 10 e * i.den, 1)
    | .negSucc e => (p * i.den, Nat.pow 10 (e + 1))
  if i.closed then i.low * den ≤ num && num ≤ i.high * den
  else i.low * den < num && num < i.high * den

/-- The point of the grid of multiples of `10 ^ k` that lies in the interval, the nearest
to the middle if both neighbours of the middle do. -/
def Interval.gridPoint? (i : Interval) (k : Int) : Option Nat :=
  let (num, den) := match k with
    | .ofNat e => (i.mid, i.den * Nat.pow 10 e)
    | .negSucc e => (i.mid * Nat.pow 10 (e + 1), i.den)
  let below := num / den
  match i.holds below k, i.holds (below + 1) k with
  | true, true => some (roundDiv num den)
  | true, false => some below
  | false, true => some (below + 1)
  | false, false => none

/-- The first grid with a point in the interval, from the coarse ones down. -/
def Interval.search (i : Interval) : Nat → Int → Decimal
  | 0, k => ⟨0, k⟩
  | fuel + 1, k =>
    match i.gridPoint? k with
    | some 0 => i.search fuel (k - 1)
    | some p => ⟨p, k⟩
    | none => i.search fuel (k - 1)

/-- The shortest decimal that rounds to the positive number `mantissa * 2 ^ exponent`.
Every number of the format lies below `10 ^ 309`, and seventeen digits always suffice. -/
def shortest (mantissa : Nat) (exponent : Int) : Decimal :=
  let i := interval mantissa exponent
  let magnitude : Int := (Nat.toDigits 10 (i.mid / i.den)).length
  if i.den ≤ i.mid then i.search 20 magnitude
  else i.search (350 + 20) 0

/-! ## Positional notation -/

/-- The decimal without an exponent: zeros fill the places up to the point. -/
def Decimal.positional (d : Decimal) : Text :=
  let ds := Text.ofNat d.digits
  match d.exponent with
  | .ofNat e => ds ++ List.replicate e 48
  | .negSucc e =>
    let places := e + 1
    if places < ds.length then
      ds.take (ds.length - places) ++ (46 :: ds.drop (ds.length - places))
    else [48, 46] ++ List.replicate (places - ds.length) 48 ++ ds

/-- The number in positional notation with the fewest digits that read back. -/
def toText : Binary64 → Text
  | .nan => "NaN"
  | .infinite true => "-Inf"
  | .infinite false => "+Inf"
  | .finite negative mantissa exponent =>
    let body := if mantissa = 0 then [48] else (shortest mantissa exponent).positional
    if negative then 45 :: body else body

end Binary64

end Assembly
