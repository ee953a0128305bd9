import Assembly.Engine.Error
import Assembly.Script.Parser

/-!
# Script errors

What is wrong with a script, where, and in which file.  Faults of the text itself carry
their place in their own words, and are reported at no position.
-/

namespace Assembly.Script

inductive ScriptFault
  | lexical (e : LexError)
  | unexpected (u : Unexpected)
  /-- A word width that is no 64-bit number. -/
  | widthRange (text : Text)
  /-- A word width that no machine has. -/
  | widthUnsupported (bits : Nat)
  | localOutside
  | returnOutside
  | paramOutside
  | badString (text : Text)
  | undefinedName (name : Text)
  | undefinedInAsm (name : Text)
  | notRegister (name : Text) (kind : ValueKind)
  | exitCode
  /-- A refusal of the engine. -/
  | engine (e : EmitError)
deriving DecidableEq, Repr

def ScriptFault.message : ScriptFault → Text
  | lexical e => e.message
  | unexpected u => u.message
  | widthRange text =>
    "Script.Bits: invalid integer " ++ Text.quote text ++ ": strconv.ParseInt: parsing " ++
      Text.quote text ++ ": value out of range"
  | widthUnsupported bits => "unsupported word width " ++ Text.ofNat bits
  | localOutside => "local outside of a function"
  | returnOutside => "return outside of a function"
  | paramOutside => "param outside of a function"
  | badString text => "invalid string literal " ++ text
  | undefinedName name => "undefined name " ++ name
  | undefinedInAsm name => "undefined name " ++ name ++ " in asm"
  | notRegister name kind => name ++ " is a " ++ kind.text ++ ", not a register"
  | exitCode => "exit code must be an integer literal"
  | engine e => e.message

structure ScriptError where
  fault : ScriptFault
  pos : Pos
  file : Text
deriving DecidableEq, Repr

namespace ScriptError

def message (e : ScriptError) : Text :=
  let file : Text := if e.file.isEmpty then [] else e.file ++ ": "
  file ++ "line " ++ Text.ofNat e.pos.line ++ ", col " ++ Text.ofNat e.pos.column ++ ": " ++
    e.fault.message

/-- The refusal of the engine behind the error, if there is one. -/
def cause (e : ScriptError) : Option EmitError :=
  match e.fault with
  | .engine c => some c
  | _ => none

end ScriptError

end Assembly.Script
