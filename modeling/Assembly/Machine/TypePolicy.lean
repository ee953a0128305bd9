import Assembly.Code.Storage
import Assembly.Machine.Target

/-!
# The type policy

A type is its name.  A name that has `float` or `double` in it is floating, every other
name is an integer type; digits at the end give the width in bits where they are one of
8, 16, 32 and 64.  A name without a size rule is unknown, and counts as one word.
-/

namespace Assembly

/-- The two register files. -/
inductive RegClass
  | int | float
deriving DecidableEq, Repr

def RegClass.text : RegClass → Text
  | int => "int"
  | float => "float"

namespace TypePolicy

/-- Whether a type is floating. -/
def isFloat (type : Text) : Bool := Text.includes "float" type || Text.includes "double" type

/-- The register class of a type. -/
def regClass (type : Text) : RegClass := if isFloat type then .float else .int

/-- The digits at the end of a name. -/
def trailingDigits (type : Text) : Text := (type.reverse.takeWhile Text.isDigit).reverse

/-- The size in bytes that the digits at the end of a name give. -/
def declaredSize? (type : Text) : Option Nat :=
  match trailingDigits type with
  | [] => none
  | ds =>
    match Text.digitsValue ds with
    | 8 => some 1
    | 16 => some 2
    | 32 => some 4
    | 64 => some 8
    | _ => none

end TypePolicy

namespace Target

open TypePolicy

/-- The size in bytes of a type whose name has a size rule. -/
def knownSize? (t : Target) (type : Text) : Option Nat :=
  if type == Text.ofString "float" then some 4
  else if type == Text.ofString "double" then some 8
  else if type == Text.ofString "str" || type == Text.ofString "ptr" then some t.wordSize
  else if type == Text.ofString "bool" || type == Text.ofString "char" then some 1
  else if isFloat type then
    match declaredSize? type with
    | some 4 => some 4
    | _ => some 8
  else if Text.includes "int" type then declaredSize? type
  else none

/-- Whether a type name has a size rule. -/
def knows (t : Target) (type : Text) : Bool := (t.knownSize? type).isSome

/-- The size of a type in bytes; an unknown type has the size of a word. -/
def typeSize (t : Target) (type : Text) : Nat := (t.knownSize? type).getD t.wordSize

/-- The integer type as wide as a word. -/
def wordType (t : Target) : Text := "int" ++ Text.ofNat t.bits

/-- The operand size for a number of bytes; a number that is no operand size counts as a
word. -/
def operandSize (t : Target) : Nat → OperandSize
  | 1 => .byte
  | 2 => .word
  | 4 => .dword
  | 8 => .qword
  | _ =>
    match t with
    | bits16 => .word
    | bits32 => .dword
    | bits64 => .qword

/-- The directive for initialized data of a type.  Texts are stored by bytes, and a type
without a size rule by words. -/
def directive (t : Target) (type : Text) : Directive :=
  if type == Text.ofString "str" then .db
  else
    match t.knownSize? type with
    | some 1 => .db
    | some 2 => .dw
    | some 4 => .dd
    | some 8 => .dq
    | _ =>
      match t with
      | bits16 => .dw
      | bits32 => .dd
      | bits64 => .dq

end Target

end Assembly
