import Assembly.Script.Source
import Assembly.Text.Quoted

/-!
# Tokens of a script

A token has a kind, the value a grammar compares it by (the decoded text for a quoted
literal, the text itself otherwise) and the position of its first character.
-/

namespace Assembly.Script

inductive TokenKind
  | name | int | float | char | string | raw | mark | eof
deriving DecidableEq, Repr

structure Token where
  kind : TokenKind
  value : Text
  pos : Pos
deriving DecidableEq, Repr

/-- What is wrong with the tokens of a script: a fault of its characters, or a quoted
literal that stands for no text. -/
inductive LexError
  | fault (f : Fault)
  | literal (pos : Pos) (text : Text)
deriving DecidableEq, Repr

/-- A position in front of a message; the position that belongs to no character is left
out. -/
def Pos.before (p : Pos) (message : Text) : Text :=
  if p.line = 0 ∧ p.column = 0 then message
  else Text.ofNat p.line ++ ":" ++ Text.ofNat p.column ++ ": " ++ message

def LexError.message : LexError → Text
  | fault f => f.pos.before f.message
  | literal pos text => pos.before ("invalid syntax: " ++ Text.quote text)

end Assembly.Script
