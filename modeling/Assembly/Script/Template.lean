import Assembly.Text

/-!
# Code templates

Code can name bound values: `{name}` stands for the operand of a value, and
`{name:N}` for the register of a value at a size of `N` bytes.  A brace that begins no such
hole is text like any other.
-/

namespace Assembly.Script

/-- A part of a template: a byte of text or a hole for a value. -/
inductive Piece
  | byte (b : UInt8)
  | hole (name : Text) (size : Option Nat)
deriving DecidableEq, Repr

namespace Template

def startsHoleName (b : UInt8) : Bool :=
  (65 ≤ b && b ≤ 90) || (97 ≤ b && b ≤ 122) || b = 95

def continuesHoleName (b : UInt8) : Bool := startsHoleName b || Text.isDigit b

/-- The size that a digit gives a hole. -/
def holeSize? (b : UInt8) : Option Nat :=
  if b = 49 ∨ b = 50 ∨ b = 52 ∨ b = 56 then some (Text.digitValue b) else none

/-- The hole behind an opening brace, and its length with the closing brace. -/
def hole? (t : Text) : Option (Piece × Nat) :=
  let name := t.takeWhile continuesHoleName
  if (name.head?.any startsHoleName) then
    match t.drop name.length with
    | 125 :: _ => some (.hole name none, name.length + 1)
    | 58 :: d :: 125 :: _ => (holeSize? d).map fun n => (.hole name (some n), name.length + 3)
    | _ => none
  else none

/-- The pieces of a text behind the first `skip` bytes, which belong to a hole. -/
def piecesFrom : Nat → Text → List Piece
  | _, [] => []
  | skip + 1, _ :: r => piecesFrom skip r
  | 0, c :: r =>
    if c = 123 then
      match hole? r with
      | some (h, length) => h :: piecesFrom length r
      | none => .byte c :: piecesFrom 0 r
    else .byte c :: piecesFrom 0 r

def pieces (t : Text) : List Piece := piecesFrom 0 t

/-- Fills the holes from left to right; the name of the first hole that has no value is
what is wrong. -/
def fill (value : Text → Option Nat → Option Text) : List Piece → Except Text Text
  | [] => .ok []
  | .byte b :: r => do return b :: (← fill value r)
  | .hole name size :: r =>
    match value name size with
    | none => .error name
    | some t => do return t ++ (← fill value r)

end Template

end Assembly.Script
