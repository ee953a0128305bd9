import Assembly.Proofs.Script.Spelling

/-!
# Trees without positions

What a script says does not depend on where its parts stand: its words, and whether a statement
takes the one behind it for a part of itself.  Two kinds of statements do: an `exit` without a
code, which takes the keyword that follows for a name, and a `let` of a string that is itself a
keyword of expressions.
-/

namespace Assembly.Script

def Term.bare (x : Term) : Term := ⟨.nowhere, x.form⟩

def CallForm.bare (c : CallForm) : CallForm := ⟨c.name, c.args.map Term.bare, c.type⟩

def ExprForm.bare : ExprForm → ExprForm
  | param name => param name
  | load value type => load value.bare type
  | alloc type => alloc type
  | call c => call c.bare
  | cast value type => cast value.bare type
  | term value => term value.bare

def Expr.bare (x : Expr) : Expr := ⟨.nowhere, x.form.bare⟩

def StmtForm.bare : StmtForm → StmtForm
  | const name type value => const name type value.bare
  | globalVar name type => globalVar name type
  | localVar name type => localVar name type
  | bind name value => bind name value.bare
  | call c => call c.bare
  | print value => print value.bare
  | asm code => asm code
  | free name => free name
  | ret value => ret value.bare
  | exit code => exit (code.map Term.bare)

def Stmt.bare (s : Stmt) : Stmt := ⟨.nowhere, s.form.bare⟩

def Formal.bare (p : Formal) : Formal := ⟨.nowhere, p.name, p.type⟩

def Func.bare (f : Func) : Func := ⟨.nowhere, f.name, f.params.map Formal.bare, f.body.map Stmt.bare⟩

def Item.bare : Item → Item
  | func f => func f.bare
  | stmt s => stmt s.bare

/-- The script without its positions and the file it was read from. -/
def bare (s : Script) : Script := ⟨.nowhere, s.width, s.items.map Item.bare, []⟩

/-! ## Statements that read on -/

/-- The keywords that expressions begin with. -/
def exprKeywords : List Text := ["param", "load", "alloc", "call", "cast"]

/-- A string that is a keyword, which takes a name that follows it for a part of itself. -/
def Expr.readsOn (x : Expr) : Bool :=
  match x.form with
  | .term ⟨_, .string v⟩ => exprKeywords.contains v
  | _ => false

/-- The statement takes a name that follows it for a part of itself. -/
def StmtForm.readsOn : StmtForm → Bool
  | exit none => true
  | bind _ value => value.readsOn
  | _ => false

def Stmt.readsOn (s : Stmt) : Bool := s.form.readsOn

def Item.readsOn : Item → Bool
  | func _ => false
  | stmt s => s.readsOn

/-- Only the last statement of the body of a function reads on. -/
def Item.isClear : Item → Bool
  | func f => f.body.dropLast.all fun s => !s.readsOn
  | stmt _ => true

/-- The script is not empty, and no statement reads on where another item or statement follows. -/
def isClear (s : Script) : Bool :=
  (s.width.isSome || !s.items.isEmpty) && s.items.dropLast.all (fun i => !i.readsOn) &&
    s.items.all Item.isClear

/-! ## What positions do not change -/

@[simp] theorem CallForm.words_bare (c : CallForm) : c.bare.words = c.words := by
  rw [words, words, bare, List.map_map]
  rfl

@[simp] theorem Expr.words_bare (x : Expr) : x.bare.words = x.words := by
  obtain ⟨pos, form⟩ := x
  cases form with
  | call c => exact c.words_bare
  | _ => rfl

@[simp] theorem Stmt.words_bare (s : Stmt) : s.bare.words = s.words := by
  obtain ⟨pos, form⟩ := s
  cases form with
  | bind name value =>
    show _ ++ value.bare.words = _ ++ value.words
    rw [Expr.words_bare]
  | call c => exact c.words_bare
  | exit code => cases code <;> rfl
  | _ => rfl

@[simp] theorem Func.words_bare (f : Func) : f.bare.words = f.words := by
  simp only [words, headWords, bare, List.map_map, List.flatMap_map, Stmt.words_bare]
  rfl

@[simp] theorem Item.words_bare (i : Item) : i.bare.words = i.words := by
  cases i with
  | func f => exact f.words_bare
  | stmt s => exact s.words_bare

@[simp] theorem Expr.readsOn_bare (x : Expr) : x.bare.readsOn = x.readsOn := by
  obtain ⟨pos, form⟩ := x
  cases form with
  | term value =>
    obtain ⟨pos, form⟩ := value
    cases form <;> rfl
  | _ => rfl

@[simp] theorem Stmt.readsOn_bare (s : Stmt) : s.bare.readsOn = s.readsOn := by
  obtain ⟨pos, form⟩ := s
  cases form with
  | bind name value => exact value.readsOn_bare
  | exit code => cases code <;> rfl
  | _ => rfl

@[simp] theorem Item.readsOn_bare (i : Item) : i.bare.readsOn = i.readsOn := by
  cases i with
  | func f => rfl
  | stmt s => exact s.readsOn_bare

@[simp] theorem Item.isClear_bare (i : Item) : i.bare.isClear = i.isClear := by
  cases i with
  | func f => simp [bare, isClear, Func.bare, ← List.map_dropLast, Function.comp_def]
  | stmt s => rfl

theorem flatMap_words_bare (s : Script) : s.bare.items.flatMap Item.words = s.items.flatMap Item.words := by
  simp [bare, List.flatMap_map]

theorem isClear_bare (s : Script) : s.bare.isClear = s.isClear := by
  simp [bare, isClear, ← List.map_dropLast, Function.comp_def]

end Assembly.Script
