import Assembly.Script.Error
import Assembly.Script.Grammar
import Assembly.Script.Lexer

/-!
# Reading scripts

From a text to a script.  A text that follows the grammar can still be refused: for a word
width that no machine has, or for a local or a return outside of functions.
-/

namespace Assembly.Script

/-- The base of an integer literal and its digits. -/
def literalDigits : Text → Nat × Text
  | 48 :: c :: r =>
    if c = 120 ∨ c = 88 then (16, r)
    else if c = 111 ∨ c = 79 then (8, r)
    else if c = 98 ∨ c = 66 then (2, r)
    else (8, c :: r)
  | t => (10, t)

/-- The number that an integer literal denotes. -/
def literalValue (t : Text) : Nat :=
  let (base, digits) := literalDigits t
  (digits.filterMap fun c => Text.hexValue? c.toNat).foldl (fun n d => n * base + d) 0

/-- The word width of a `bits` line; no line is the same as zero. -/
def widthValue : Option Text → Except ScriptFault Nat
  | none => .ok 0
  | some t =>
    let n := literalValue t
    if n < 0x8000000000000000 then .ok n else .error (.widthRange t)

/-- The width and the items of a script by the grammar alone. -/
def readItems (ts : List Token) (eof : Token) : Except ScriptFault (Nat × List Item) :=
  match Grammar.script (.start ts eof) with
  | (.error (.wrong u), _) => .error (.unexpected u)
  | (.error .absent, c) => .error (.unexpected c.deepest)
  | (.ok (none, []), c) => .error (.unexpected c.deepest)
  | (.ok (width, items), c) => do
    let bits ← widthValue width
    if c.rest.isEmpty then return (bits, items) else throw (.unexpected c.deepest)

/-- What a statement may not be outside of functions. -/
def topFault? : Item → Option ScriptFault
  | .func _ => none
  | .stmt s =>
    match s.form with
    | .localVar _ _ => some .localOutside
    | .ret _ => some .returnOutside
    | _ => none

/-- The machine for a word width; zero asks for none. -/
def machine? (bits : Nat) : Except ScriptFault (Option Target) :=
  if bits = 0 then .ok none
  else
    match [Target.bits16, .bits32, .bits64].find? (·.bits = bits) with
    | some t => .ok (some t)
    | none => .error (.widthUnsupported bits)

def refusal? (i : Item) : Option ScriptError := (topFault? i).map (⟨·, i.pos, []⟩)

/-- Reads a script. -/
def parse (source : Text) : Except ScriptError Script := do
  let unplaced (f : ScriptFault) : ScriptError := ⟨f, .nowhere, []⟩
  let (ts, eof) ← (tokens source).mapError (unplaced ∘ .lexical)
  let (bits, items) ← (readItems ts eof).mapError unplaced
  let pos := (Cursor.start ts eof).next.pos
  let width ← (machine? bits).mapError (⟨·, pos, []⟩)
  match items.findSome? refusal? with
  | some e => throw e
  | none => return ⟨pos, width, items, []⟩

end Assembly.Script
