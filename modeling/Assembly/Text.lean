/-!
# Byte text

Everything this library reads and writes is a list of bytes.  Source files and names
are usually UTF-8, but a byte that belongs to no character is kept like any other, and
lengths count bytes.

String literals are read as their UTF-8 bytes through a coercion whose value the kernel
computes, so that closed facts about texts are decided by evaluation.
-/

namespace Assembly

/-- A text is a list of bytes. -/
abbrev Text := List UInt8

namespace Text

/-- The UTF-8 bytes of a string. -/
def ofString (s : String) : Text := s.toByteArray.data.toList

instance : Coe String Text := ⟨ofString⟩

/-! ## Searching -/

/-- Whether `needle` occurs in the text. -/
def includes (needle : Text) : Text → Bool
  | [] => needle.isEmpty
  | c :: r => needle.isPrefixOf (c :: r) || includes needle r

/-- Whether the text has one of the bytes of `set`. -/
def hasAny (set : Text) (t : Text) : Bool := t.any (set.contains ·)

/-- What follows `front` in the text, if the text begins with it. -/
def after? (front : Text) : Text → Option Text
  | t => if front.isPrefixOf t then some (t.drop front.length) else none

/-- The text up to the first `sep` and the text after it, which is empty when there is
no `sep`. -/
def cut (sep : UInt8) (t : Text) : Text × Text :=
  (t.takeWhile (· != sep), (t.dropWhile (· != sep)).drop 1)

/-! ## Splitting and joining -/

/-- The parts between the occurrences of `sep`; there is always at least one. -/
def split (sep : UInt8) : Text → List Text
  | [] => [[]]
  | c :: r =>
    match split sep r with
    | [] => [[c]]
    | p :: ps => if c = sep then [] :: p :: ps else (c :: p) :: ps

/-- The parts between the occurrences of the pair `a b`, read from the left. -/
def splitPair (a b : UInt8) : Text → List Text
  | [] => [[]]
  | [c] => [[c]]
  | c :: d :: r =>
    if c = a ∧ d = b then [] :: splitPair a b r
    else
      match splitPair a b (d :: r) with
      | [] => [[c]]
      | p :: ps => (c :: p) :: ps

/-- The parts with `sep` between neighbours. -/
def join (sep : Text) : List Text → Text
  | [] => []
  | [t] => t
  | t :: u :: r => t ++ (sep ++ join sep (u :: r))

/-- The lines of a text: newline bytes divide them, so a text has one line more than it
has newlines. -/
def lines (t : Text) : List Text := split 10 t

/-- The lines as one text. -/
def unlines (ls : List Text) : Text := join [10] ls

theorem split_ne_nil (sep : UInt8) (t : Text) : split sep t ≠ [] := by
  cases t with
  | nil => simp [split]
  | cons c r =>
    rw [split]
    cases split sep r with
    | nil => simp
    | cons p ps => by_cases h : c = sep <;> simp [h]

theorem join_cons_cons (sep : Text) (c : UInt8) (p : Text) (ps : List Text) :
    join sep ((c :: p) :: ps) = c :: join sep (p :: ps) := by
  cases ps <;> simp [join]

/-- Splitting loses nothing. -/
theorem join_split (sep : UInt8) (t : Text) : join [sep] (split sep t) = t := by
  induction t with
  | nil => rfl
  | cons c r ih =>
    rw [split]
    cases h : split sep r with
    | nil => exact absurd h (split_ne_nil sep r)
    | cons p ps =>
      rw [h] at ih
      by_cases hc : c = sep
      · simp [hc, join, ih]
      · simp [hc, join_cons_cons, ih]

theorem unlines_lines (t : Text) : unlines (lines t) = t := join_split 10 t

/-! ## Numbers as text -/

/-- The byte of an ASCII character. -/
def byte (c : Char) : UInt8 := c.toNat.toUInt8

/-- Decimal digits, without leading zeros. -/
def ofNat (n : Nat) : Text := (Nat.toDigits 10 n).map byte

/-- Decimal digits after a minus sign if the number is negative. -/
def ofInt : Int → Text
  | .ofNat n => ofNat n
  | .negSucc n => 45 :: ofNat (n + 1)

/-- `width` hexadecimal digits in lower case, the low ones of the number. -/
def hex : Nat → Nat → Text
  | 0, _ => []
  | width + 1, n => hex width (n / 16) ++ [byte (Nat.digitChar (n % 16))]

/-- Spaces in front, up to `width` bytes. -/
def padLeft (width : Nat) (t : Text) : Text := List.replicate (width - t.length) 32 ++ t

def isDigit (c : UInt8) : Bool := 48 ≤ c && c ≤ 57

def digitValue (c : UInt8) : Nat := c.toNat - 48

/-- The number that a list of decimal digits denotes. -/
def digitsValue (t : Text) : Nat := t.foldl (fun n c => n * 10 + digitValue c) 0

/-- The signed decimal number that the text spells: an optional sign, then digits only. -/
def toInt? (t : Text) : Option Int :=
  match t with
  | 43 :: r => unsigned r
  | 45 :: r => (unsigned r).map (- ·)
  | r => unsigned r
where
  unsigned (r : Text) : Option Int :=
    if r ≠ [] ∧ r.all isDigit then some (digitsValue r) else none

/-- The number that the text spells, if it fits a signed word of 64 bits. -/
def toInt64? (t : Text) : Option Int :=
  (toInt? t).filter fun n => -0x8000000000000000 ≤ n ∧ n < 0x8000000000000000

/-- The text of a truth value. -/
def ofBool (b : Bool) : Text := if b then "true" else "false"

/-- A list of words in brackets, divided by spaces. -/
def bracketed (words : List Text) : Text := "[" ++ join " " words ++ "]"

end Text

end Assembly
