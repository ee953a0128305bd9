import Assembly.Text.Rune
import Assembly.Text.Printable

/-!
# Quoted text

A quoted text stands between double quotes.  Printable characters stand for themselves,
the quote and the backslash behind a backslash, and every other character is an escape,
so that a quoted text is one printable line.

`unquote?` reads quoted text back.  It accepts more than `quote` writes: every escape of
the format, and text between backquotes, in which nothing is escaped and carriage returns
are dropped.
-/

namespace Assembly.Text

/-- The letter behind the backslash for a control character that has one. -/
def escapeLetter? : Nat → Option UInt8
  | 7 => some 97
  | 8 => some 98
  | 9 => some 116
  | 10 => some 110
  | 11 => some 118
  | 12 => some 102
  | 13 => some 114
  | _ => none

/-- A character as it is written between double quotes. -/
def escapeRune (c : Rune) : Text :=
  if ¬ c.valid then c.bytes.flatMap fun b => "\\x" ++ hex 2 b.toNat
  else if c.code = 34 ∨ c.code = 92 then 92 :: c.bytes
  else if isPrintable c.code then c.bytes
  else
    match escapeLetter? c.code with
    | some l => [92, l]
    | none =>
      if c.code < 0x80 then "\\x" ++ hex 2 c.code
      else if c.code < 0x10000 then "\\u" ++ hex 4 c.code
      else "\\U" ++ hex 8 c.code

/-- The text between double quotes. -/
def quote (t : Text) : Text := 34 :: ((runes t).flatMap escapeRune ++ [34])

/-! ## Reading -/

/-- The byte that a one-letter escape stands for.  The single quote is no escape here,
because it needs none between double quotes. -/
def letterEscape? : Nat → Option UInt8
  | 97 => some 7
  | 98 => some 8
  | 102 => some 12
  | 110 => some 10
  | 114 => some 13
  | 116 => some 9
  | 118 => some 11
  | 92 => some 92
  | 34 => some 34
  | _ => none

def hexValue? (code : Nat) : Option Nat :=
  if 48 ≤ code ∧ code ≤ 57 then some (code - 48)
  else if 97 ≤ code ∧ code ≤ 102 then some (code - 87)
  else if 65 ≤ code ∧ code ≤ 70 then some (code - 55)
  else none

def octalValue? (code : Nat) : Option Nat :=
  if 48 ≤ code ∧ code ≤ 55 then some (code - 48) else none

/-- The number written by digits, the most significant first. -/
def numberOf? (base : Nat) (digit? : Nat → Option Nat) (cs : List Rune) : Option Nat :=
  cs.foldlM (fun n c => (digit? c.code).map fun d => n * base + d) 0

/-- The UTF-8 bytes of an escaped code point, which must be a scalar value. -/
def scalarBytes? (code : Nat) : Option Text :=
  if Rune.isScalar code then some (Rune.encode code) else none

/-- The text that the characters behind an opening double quote stand for.  They end with
the closing quote; an unescaped newline or quote in between is refused. -/
def unescape? : List Rune → Option Text
  | [] => none
  | c :: r =>
    if c.code = 34 then if r.isEmpty then some [] else none
    else if c.code = 10 then none
    else if c.code ≠ 92 then (unescape? r).map (Rune.encode c.code ++ ·)
    else
      match r with
      | [] => none
      | e :: r =>
        match letterEscape? e.code with
        | some b => (unescape? r).map (b :: ·)
        | none =>
          if e.code = 120 then
            match r with
            | a :: b :: r => do
              let n ← numberOf? 16 hexValue? [a, b]
              (unescape? r).map (n.toUInt8 :: ·)
            | _ => none
          else if e.code = 117 then
            match r with
            | a :: b :: c :: d :: r => do
              let bytes ← (numberOf? 16 hexValue? [a, b, c, d]).bind scalarBytes?
              (unescape? r).map (bytes ++ ·)
            | _ => none
          else if e.code = 85 then
            match r with
            | a :: b :: c :: d :: a' :: b' :: c' :: d' :: r => do
              let bytes ←
                (numberOf? 16 hexValue? [a, b, c, d, a', b', c', d']).bind scalarBytes?
              (unescape? r).map (bytes ++ ·)
            | _ => none
          else
            match r with
            | a :: b :: r => do
              let n ← numberOf? 8 octalValue? [e, a, b]
              if n < 256 then (unescape? r).map (n.toUInt8 :: ·) else none
            | _ => none

/-- The text that a quoted text stands for; `none` if it is not quoted text. -/
def unquote? : Text → Option Text
  | 34 :: r => unescape? (runes r)
  | 96 :: r =>
    match r.reverse with
    | 96 :: body => if body.contains 96 then none else some (body.reverse.filter (· != 13))
    | _ => none
  | _ => none

end Assembly.Text
