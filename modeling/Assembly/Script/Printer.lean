import Assembly.Script.Tree
import Assembly.Text.Quoted

/-!
# Writing scripts

The text of a script in the concrete syntax: one statement a line, strings quoted, and
nothing written for parts that are absent.
-/

namespace Assembly.Script

def TermForm.text : TermForm → Text
  | string t => Text.quote t
  | number t => t
  | name t => t

def Term.text (x : Term) : Text := x.form.text

/-- A type of a result, with the word in front of it. -/
def asText : Option Text → Text
  | some type => " as " ++ type
  | none => []

def CallForm.text (c : CallForm) : Text :=
  "call " ++ c.name ++ "(" ++ Text.join ", " (c.args.map (·.text)) ++ ")" ++ asText c.type

def ExprForm.text : ExprForm → Text
  | param name => "param " ++ name
  | load value type => "load " ++ value.text ++ asText type
  | alloc type => "alloc " ++ type
  | call c => c.text
  | cast value type => "cast " ++ value.text ++ " to " ++ type
  | term value => value.text

def Expr.text (x : Expr) : Text := x.form.text

def StmtForm.text : StmtForm → Text
  | const name type value =>
    let typed : Text := match type with
      | some t => " " ++ t
      | none => []
    "const " ++ name ++ typed ++ " = " ++ value.text
  | globalVar name type => "global " ++ name ++ " " ++ type
  | localVar name type => "local " ++ name ++ " " ++ type
  | bind name value => "let " ++ name ++ " = " ++ value.text
  | call c => c.text
  | print value => "print " ++ value.text
  | asm code => "asm " ++ Text.quote code
  | free name => "free " ++ name
  | ret value => "return " ++ value.text
  | exit code =>
    match code with
    | some value => "exit " ++ value.text
    | none => "exit"

def Stmt.text (s : Stmt) : Text := s.form.text

def Formal.text (p : Formal) : Text := p.name ++ " " ++ p.type

/-- A statement on a line of its own in a function. -/
def indented (s : Stmt) : Text := "    " ++ s.text ++ "\n"

def Func.text (f : Func) : Text :=
  "func " ++ f.name ++ "(" ++ Text.join ", " (f.params.map (·.text)) ++ ") \x7b\n" ++
    f.body.flatMap indented ++ "\x7d"

def Item.text : Item → Text
  | func f => f.text
  | stmt s => s.text

/-- An item on lines of its own. -/
def Item.lines (i : Item) : Text := i.text ++ "\n"

/-- The text of a script. -/
def text (s : Script) : Text :=
  let width : Text := match s.width with
    | some t => "bits " ++ Text.ofNat t.bits ++ "\n"
    | none => []
  width ++ s.items.flatMap Item.lines

end Assembly.Script
