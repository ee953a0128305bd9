import Assembly.Text

/-!
# Characters of a text

A text is read from the left as UTF-8.  A byte that begins no well-formed sequence is a
character of its own, with the replacement code point U+FFFD, so that reading never
fails and the bytes of the characters always join to the text.

Well-formed means: shortest form, no surrogates, nothing above U+10FFFF.
-/

namespace Assembly

/-- One character: its code point, the bytes it was read from, and whether they are a
well-formed sequence. -/
structure Rune where
  code : Nat
  bytes : Text
  valid : Bool
deriving DecidableEq, Repr

namespace Rune

/-- The code point that stands for a malformed byte. -/
def replacement : Nat := 0xFFFD

def malformed (b : UInt8) : Rune := ⟨replacement, [b], false⟩

/-- Code points that UTF-8 can write: no surrogates, nothing above U+10FFFF. -/
def isScalar (code : Nat) : Bool := code < 0xD800 || (0xE000 ≤ code && code ≤ 0x10FFFF)

/-- The UTF-8 bytes of a code point; one that cannot be written becomes the replacement. -/
def encode (code : Nat) : Text :=
  if code < 0x80 then [code.toUInt8]
  else if code < 0x800 then [(0xC0 + code / 64).toUInt8, (0x80 + code % 64).toUInt8]
  else if ¬ isScalar code then [0xEF, 0xBF, 0xBD]
  else if code < 0x10000 then
    [(0xE0 + code / 4096).toUInt8, (0x80 + code / 64 % 64).toUInt8, (0x80 + code % 64).toUInt8]
  else
    [(0xF0 + code / 262144).toUInt8, (0x80 + code / 4096 % 64).toUInt8,
      (0x80 + code / 64 % 64).toUInt8, (0x80 + code % 64).toUInt8]

def ofCode (code : Nat) : Rune := ⟨code, encode code, true⟩

/-- The six payload bits of a continuation byte. -/
def payload? (b : UInt8) : Option Nat :=
  if 0x80 ≤ b ∧ b ≤ 0xBF then some (b.toNat - 0x80) else none

/-- A code point read from `width` bytes, if it is a scalar value that needs so many. -/
def scalar? (least width code : Nat) : Option (Nat × Nat) :=
  if least ≤ code ∧ isScalar code then some (code, width) else none

/-- The code point of the well-formed sequence a text begins with, and its length. -/
def sequence? : Text → Option (Nat × Nat)
  | [] => none
  | a :: r =>
    if a < 0x80 then some (a.toNat, 1)
    else if 0xC0 ≤ a ∧ a < 0xE0 then
      match r with
      | b :: _ => do
        let x ← payload? b
        scalar? 0x80 2 ((a.toNat - 0xC0) * 64 + x)
      | _ => none
    else if 0xE0 ≤ a ∧ a < 0xF0 then
      match r with
      | b :: c :: _ => do
        let x ← payload? b
        let y ← payload? c
        scalar? 0x800 3 (((a.toNat - 0xE0) * 64 + x) * 64 + y)
      | _ => none
    else if 0xF0 ≤ a ∧ a < 0xF8 then
      match r with
      | b :: c :: d :: _ => do
        let x ← payload? b
        let y ← payload? c
        let z ← payload? d
        scalar? 0x10000 4 ((((a.toNat - 0xF0) * 64 + x) * 64 + y) * 64 + z)
      | _ => none
    else none

/-- The character that a nonempty text `b :: r` begins with. -/
def first (b : UInt8) (r : Text) : Rune :=
  match sequence? (b :: r) with
  | some (code, width) => ⟨code, (b :: r).take width, true⟩
  | none => malformed b

/-- The characters of a text after its first `skip` bytes, which belong to a character
already read.  The recursion is on the bytes, so that the kernel evaluates it. -/
def readFrom : Nat → Text → List Rune
  | _, [] => []
  | skip + 1, _ :: r => readFrom skip r
  | 0, b :: r => first b r :: readFrom ((first b r).bytes.length - 1) r

end Rune

namespace Text

/-- The characters of a text. -/
def runes (t : Text) : List Rune := Rune.readFrom 0 t

/-- Whether a text is well-formed UTF-8. -/
def isUtf8 (t : Text) : Bool := (runes t).all (·.valid)

end Text

end Assembly
