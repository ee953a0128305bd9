import Assembly.Value

/-!
# Engine errors

Why an operation of the engine is refused, and the words for it.  The first four causes
arise in strict mode only; a permissive engine logs a warning and goes on.
-/

namespace Assembly

inductive EmitError
  /-- A type name without a size rule. -/
  | unknownType (type : Text)
  /-- A symbol that is defined already. -/
  | duplicateSymbol (name : Text)
  /-- A second local of one name in a function. -/
  | duplicateLocal (name function : Text)
  /-- All registers of a class are in use. -/
  | poolExhausted (regClass : RegClass) (size : Nat)
  /-- A function begun inside another. -/
  | functionOpen (name current : Text)
  /-- A function that is no longer the open one. -/
  | functionEnded (name : Text)
  /-- A parameter that the function does not have. -/
  | unknownParam (name function : Text)
  /-- A value of a kind that cannot be cast. -/
  | castOperand (kind : ValueKind)
  /-- A constant declared from something else than a literal. -/
  | notLiteral (name : Text) (kind : ValueKind)
  | loadString
  | returnString (function : Text)
  /-- A text that spells no number. -/
  | badNumeral (spelling : Text)
  /-- A failure while an argument of a call was pushed. -/
  | argument (callee : Text) (index : Nat) (cause : EmitError)
  /-- A failure while a parameter of a function was checked. -/
  | parameter (function param : Text) (cause : EmitError)
  /-- A failure that the caller of the engine raised. -/
  | raised (message : Text)
deriving DecidableEq, Repr

namespace EmitError

def message : EmitError → Text
  | unknownType type => "unknown type: " ++ Text.quote type
  | duplicateSymbol name => "duplicate symbol: " ++ name
  | duplicateLocal name function => "duplicate symbol: local " ++ name ++ " in " ++ function
  | poolExhausted c size =>
    "register pool exhausted: all " ++ Text.ofNat size ++ " " ++ c.text ++ " registers in use"
  | functionOpen name current =>
    "a function is already open: cannot begin " ++ name ++ " inside " ++ current
  | functionEnded name => "no open function: " ++ name ++ " has ended"
  | unknownParam name function => "unknown parameter: " ++ name ++ " in " ++ function
  | castOperand kind => "invalid cast operand: " ++ kind.text
  | notLiteral name kind => "const " ++ name ++ ": expected a literal, got " ++ kind.text
  | loadString => "cannot load a string literal into a register"
  | returnString function => function ++ ": cannot return a string literal"
  | badNumeral spelling => "invalid numeric literal " ++ Text.quote spelling
  | argument callee index cause =>
    "call " ++ callee ++ ": argument " ++ Text.ofNat index ++ ": " ++ cause.message
  | parameter function param cause => function ++ ": parameter " ++ param ++ ": " ++ cause.message
  | raised message => message

/-- The cause of a failure, without the places it passed through. -/
def root : EmitError → EmitError
  | argument _ _ cause => cause.root
  | parameter _ _ cause => cause.root
  | e => e

end EmitError

end Assembly
