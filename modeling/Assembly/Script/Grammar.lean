import Assembly.Script.Parser
import Assembly.Script.Tree

/-!
# The grammar of scripts

Every statement begins with a keyword of its own, so one token decides what follows.
-/

namespace Assembly.Script.Grammar

open Script.Parser

def name : Parser Text := ofKind .name

/-- A name that has to follow. -/
def aName : Parser Text := need .name name

/-- A word that has to follow. -/
def theWord (w : Text) : Parser Unit := need (.word w) (word w)

/-- An integer or floating number, with its minus sign if it has one. -/
def number : Parser Text := do
  let minus ← optional (word "-")
  let digits ← need .number (choice [ofKind .float, ofKind .int])
  return (if minus.isSome then 45 :: digits else digits)

def term : Parser Term := node do
  let pos ← here
  let form ← choice
    [ TermForm.string <$> ofKind .string
    , TermForm.number <$> number
    , TermForm.name <$> name ]
  return ⟨pos, form⟩

/-- The type of a result. -/
def asType : Parser (Option Text) := optional do
  word "as"
  aName

def call : Parser CallForm := node do
  word "call"
  let name ← aName
  theWord "("
  let args ← listed .number term
  theWord ")"
  let type ← asType
  return ⟨name, args, type⟩

def load : Parser ExprForm := node do
  word "load"
  let value ← term
  let type ← asType
  return .load value type

def cast : Parser ExprForm := node do
  word "cast"
  let value ← term
  theWord "to"
  let type ← aName
  return .cast value type

def expr : Parser Expr := node do
  let pos ← here
  let form ← choice
    [ do word "param"; return .param (← aName)
    , load
    , do word "alloc"; return .alloc (← aName)
    , ExprForm.call <$> call
    , cast
    , ExprForm.term <$> term ]
  return ⟨pos, form⟩

def constDecl : Parser StmtForm := node do
  word "const"
  let name ← aName
  let type ← optional Grammar.name
  theWord "="
  let value ← term
  return .const name type value

def globalDecl : Parser StmtForm := node do
  word "global"
  let name ← aName
  let type ← aName
  return .globalVar name type

def localDecl : Parser StmtForm := node do
  word "local"
  let name ← aName
  let type ← aName
  return .localVar name type

def binding : Parser StmtForm := node do
  word "let"
  let name ← aName
  theWord "="
  let value ← expr
  return .bind name value

def asmCode : Parser StmtForm := node do
  word "asm"
  return .asm (← need .string (ofKind .string))

def freeing : Parser StmtForm := node do
  word "free"
  return .free (← aName)

def exiting : Parser StmtForm := node do
  word "exit"
  return .exit (← optional term)

def stmt : Parser Stmt := node do
  let pos ← here
  let form ← choice
    [ constDecl
    , globalDecl
    , localDecl
    , binding
    , StmtForm.call <$> call
    , do word "print"; return .print (← term)
    , asmCode
    , freeing
    , do word "return"; return .ret (← term)
    , exiting ]
  return ⟨pos, form⟩

def formal : Parser Formal := node do
  let pos ← here
  let name ← Grammar.name
  let type ← aName
  return ⟨pos, name, type⟩

def func : Parser Func := node do
  let pos ← here
  word "func"
  let name ← aName
  theWord "("
  let params ← listed .name formal
  theWord ")"
  theWord "\x7b"
  let body ← many stmt
  theWord "\x7d"
  return ⟨pos, name, params, body⟩

def item : Parser Item := node do
  choice [Item.func <$> func, Item.stmt <$> stmt]

/-- The word width a script asks for, as it is written. -/
def width : Parser Text := do
  word "bits"
  need .int (ofKind .int)

/-- A whole script: its width, if it states one, and its items. -/
def script : Parser (Option Text × List Item) := do
  let width ← optional width
  let items ← many item
  return (width, items)

end Assembly.Script.Grammar
