import Assembly.Text.Blank
import Assembly.Text.Quoted

/-!
# Log entries

Diagnostics are recorded as data: a level, a message and named fields.  A reader chooses
the least level to see and has the entries written as lines.

In a line the fields follow the message as `name=value`.  A value that would be hard to
tell apart from its surroundings is quoted, and a value of several lines is set off as a
block below its name.
-/

namespace Assembly.Log

inductive Level
  | debug | warn
deriving DecidableEq, Repr

def Level.text : Level → Text
  | debug => "DEBU"
  | warn => "WARN"

/-- Whether an entry of this level is seen by a reader who asks for `least`. -/
def Level.reaches (level least : Level) : Bool := level = .warn || least = .debug

structure Entry where
  level : Level
  message : Text
  fields : List (Text × Text)
deriving DecidableEq, Repr

/-! ## Writing -/

/-- A character inside a rewritten value: printable ones as they are, a malformed byte as
the replacement character, others as escapes. -/
def escapeRune (quotes : Bool) (c : Rune) : Text :=
  if quotes ∧ c.code = 34 then "\\\""
  else if Text.isPrintable c.code then Rune.encode c.code
  else
    match Text.escapeLetter? c.code with
    | some l => [92, l]
    | none =>
      if c.code < 0x20 then "\\x" ++ Text.hex 2 c.code
      else if c.code < 0x10000 then "\\u" ++ Text.hex 4 c.code
      else "\\U" ++ Text.hex 8 c.code

/-- Whether a value has a character that is rewritten.  A malformed byte counts as the
replacement character, which is printable. -/
def needsEscapes (t : Text) : Bool :=
  (Text.runes t).any fun c => c.code = 34 || !Text.isPrintable c.code

/-- A value as it is written.  Bytes that are malformed stay as they are unless some other
character makes the value one to be rewritten. -/
def escape (quotes : Bool) (t : Text) : Text :=
  if needsEscapes t then (Text.runes t).flatMap (escapeRune quotes) else t

/-- Whether a value has to be quoted: it has a quote, an equals sign, a blank, or a
character that is malformed or not printable. -/
def needsQuotes (t : Text) : Bool :=
  (Text.runes t).any fun c =>
    c.code = 34 || c.code = 61 || c.code = Rune.replacement || Text.isBlankCode c.code ||
      !Text.isPrintable c.code

/-- The lines of a block.  A newline at the end closes its line and opens none. -/
def blockLines (t : Text) : List Text :=
  match (Text.lines t).reverse with
  | [] :: r => r.reverse
  | _ => Text.lines t

/-- A field of a line; `last` tells whether no field follows. -/
def fieldText (last : Bool) (field : Text × Text) : Text :=
  let (name, value) := field
  if value.contains 10 then
    let block := (blockLines value).map fun l => "  │ " ++ escape false l
    let close : Text := if last ∧ value.getLast? ≠ some 10 then [] else [10]
    "\n  " ++ name ++ "=\n" ++ Text.unlines block ++ close
  else if value.isEmpty then " " ++ name ++ "=\"\""
  else if needsQuotes value then " " ++ name ++ "=\"" ++ escape true value ++ "\""
  else " " ++ name ++ "=" ++ value

def fieldsText : List (Text × Text) → Text
  | [] => []
  | [f] => fieldText true f
  | f :: g :: r => fieldText false f ++ fieldsText (g :: r)

/-- An entry as a line; a name of the program stands in front of the message if given. -/
def Entry.text (program : Option Text) (e : Entry) : Text :=
  e.level.text ++ " " ++ (match program with | some p => p ++ ": " | none => []) ++ e.message ++
    fieldsText e.fields

end Assembly.Log
