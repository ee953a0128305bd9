import Assembly.Engine.Emit

/-!
# Declarations and generated constants

Named storage that a caller declares, and the constants that the engine generates for
literals that cannot be instruction operands.  Generated names carry a counter.
-/

namespace Assembly.Emit

/-- Reserves storage for a variable. -/
def declareGlobal (name type : Text) : Emit Value := do
  checkType type
  claimSymbol name
  move (.reserve ⟨name, (← read).target.typeSize type⟩)
  return .ofGlobal name type

/-- The type of a constant when none is given: text, single precision, or a word. -/
def literalType (t : Target) (lit : Value) : Text :=
  if lit.kind = .string then "str" else if lit.isFloat then "float" else t.wordType

/-- What a literal of a type is stored as. -/
def literalContent (lit : Value) (type : Text) : Content :=
  if lit.kind = .string then .bytes lit.text 0
  else if TypePolicy.isFloat type then .number (floatSpelling lit.text)
  else .number lit.text

/-- Stores a literal under a name.  An empty type is the literal's own. -/
def declareConst (name : Text) (lit : Value) (type : Text) : Emit Value := do
  if lit.kind ≠ .number ∧ lit.kind ≠ .string then throw (.notLiteral name lit.kind)
  let t := (← read).target
  let type := if type.isEmpty then literalType t lit else type
  checkType type
  claimSymbol name
  move (.store ⟨name, t.directive type, literalContent lit type⟩)
  return .ofConstant name type

/-! ## Generated constants -/

/-- The name of a generated constant. -/
def generatedName (stem : Text) (count : Nat) : Text := stem ++ "_" ++ Text.ofNat count

/-- Stores a generated constant; the name is new by its counter and is not checked. -/
def addGenerated (name : Text) (directive : Directive) (content : Content) : Emit Unit :=
  moves [.define name, .store ⟨name, directive, content⟩]

/-- A number headed for a floating-point register becomes a constant, because there are no
floating-point immediates.  Every other value is returned as it is. -/
def materialize (v : Value) (type : Text) : Emit Value := do
  if v.kind ≠ .number ∨ ¬ TypePolicy.isFloat type then return v
  let e ← read
  let name := generatedName "float_lit" e.literals
  move .countLiteral
  addGenerated name (e.target.directive type) (.number (floatSpelling v.text))
  return .ofConstant name type

/-- Stores a text with a zero byte behind it, and returns its label. -/
def stringLabel (t : Text) : Emit Text := do
  let e ← read
  let name := generatedName "str" e.literals
  move .countLiteral
  addGenerated name .db (.bytes t 0)
  return name

end Assembly.Emit
