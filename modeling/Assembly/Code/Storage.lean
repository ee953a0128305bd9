import Assembly.Text

/-!
# Storage

Entries of the two data segments.  A reservation is storage without contents; a datum
has contents, a text with a terminator byte or one number.

Text is stored as a list of items: runs of printable characters between double quotes and
single bytes in decimal.  The quote and the backslash are always written in decimal, so
that a quoted run has no escapes.
-/

namespace Assembly

/-- Bytes reserved under a name. -/
structure Reservation where
  name : Text
  size : Nat
deriving DecidableEq, Repr

def Reservation.text (r : Reservation) : Text :=
  "    " ++ r.name ++ ": resb " ++ Text.ofNat r.size

/-- The directives for initialized data, by unit size. -/
inductive Directive
  | db | dw | dd | dq
deriving DecidableEq, Repr

namespace Directive

def unit : Directive → Nat
  | db => 1
  | dw => 2
  | dd => 4
  | dq => 8

def text : Directive → Text
  | db => "db"
  | dw => "dw"
  | dd => "dd"
  | dq => "dq"

end Directive

/-! ## Lists of bytes -/

/-- One item of a list of bytes. -/
inductive DataItem
  | run (t : Text)
  | value (b : UInt8)
deriving DecidableEq, Repr

namespace DataItem

def text : DataItem → Text
  | run t => 34 :: (t ++ [34])
  | value b => Text.ofNat b.toNat

/-- The bytes that an item stores. -/
def bytes : DataItem → Text
  | run t => t
  | value b => [b]

/-- Bytes that may stand in a quoted run. -/
def isPlain (c : UInt8) : Bool := 32 ≤ c && c ≤ 126 && c != 34 && c != 92

/-- The items that store a text, with runs as long as they can be. -/
def ofText : Text → List DataItem
  | [] => []
  | c :: r =>
    if isPlain c then
      match ofText r with
      | run t :: rest => run (c :: t) :: rest
      | rest => run [c] :: rest
    else value c :: ofText r

end DataItem

/-- A text as a list of items; the empty text is an empty run. -/
def dataList (t : Text) : Text :=
  if t.isEmpty then "\"\"" else Text.join ", " ((DataItem.ofText t).map (·.text))

/-! ## Initialized data -/

/-- A number spelled so that it reads as floating point: a spelling without point and
exponent gets a fraction. -/
def floatSpelling (t : Text) : Text := if Text.hasAny ".eE" t then t else t ++ ".0"

/-- What a datum holds. -/
inductive Content
  | bytes (t : Text) (terminator : UInt8)
  | number (spelling : Text)
deriving DecidableEq, Repr

def Content.text : Content → Text
  | bytes t terminator => dataList t ++ ", " ++ Text.ofNat terminator.toNat
  | number spelling => spelling

/-- Initialized storage under a name. -/
structure Datum where
  name : Text
  directive : Directive
  content : Content
deriving DecidableEq, Repr

def Datum.text (d : Datum) : Text :=
  "    " ++ d.name ++ ": " ++ d.directive.text ++ " " ++ d.content.text

end Assembly
