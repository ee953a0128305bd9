import Assembly.Machine.Target
import Assembly.Script.Source

/-!
# Scripts

A script is a list of functions and statements.  Every part keeps the position of its
first token.
-/

namespace Assembly.Script

/-- A literal or a name.  A string is the text it denotes, a number the text it is written
as, its minus sign included. -/
inductive TermForm
  | string (value : Text)
  | number (value : Text)
  | name (value : Text)
deriving DecidableEq, Repr

structure Term where
  pos : Pos
  form : TermForm
deriving DecidableEq, Repr

/-- A call, with the type of its result if one is given. -/
structure CallForm where
  name : Text
  args : List Term
  type : Option Text
deriving DecidableEq, Repr

inductive ExprForm
  | param (name : Text)
  | load (value : Term) (type : Option Text)
  | alloc (type : Text)
  | call (c : CallForm)
  | cast (value : Term) (type : Text)
  | term (value : Term)
deriving DecidableEq, Repr

structure Expr where
  pos : Pos
  form : ExprForm
deriving DecidableEq, Repr

inductive StmtForm
  | const (name : Text) (type : Option Text) (value : Term)
  | globalVar (name type : Text)
  | localVar (name type : Text)
  | bind (name : Text) (value : Expr)
  | call (c : CallForm)
  | print (value : Term)
  | asm (code : Text)
  | free (name : Text)
  | ret (value : Term)
  | exit (code : Option Term)
deriving DecidableEq, Repr

structure Stmt where
  pos : Pos
  form : StmtForm
deriving DecidableEq, Repr

structure Formal where
  pos : Pos
  name : Text
  type : Text
deriving DecidableEq, Repr

structure Func where
  pos : Pos
  name : Text
  params : List Formal
  body : List Stmt
deriving DecidableEq, Repr

inductive Item
  | func (f : Func)
  | stmt (s : Stmt)
deriving DecidableEq, Repr

def Item.pos : Item → Pos
  | func f => f.pos
  | stmt s => s.pos

end Assembly.Script

namespace Assembly

/-- A script: the word width it asks for, if any, and its items.  `file` is the path it was
read from, and empty if there is none. -/
structure Script where
  pos : Script.Pos
  width : Option Target
  items : List Script.Item
  file : Text
deriving DecidableEq, Repr

end Assembly
