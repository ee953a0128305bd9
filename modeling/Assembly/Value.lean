import Assembly.Machine.TypePolicy
import Assembly.Numeral.Binary64

/-!
# Values

A value is an operand handed to the engine or returned by it: a literal, named storage, a
stack slot, or a register.  Its type is a name, which may be empty for a value whose type
nobody gave.
-/

namespace Assembly

/-- What a value refers to. -/
inductive ValueKind
  | empty | string | number | global | constant | slot | register | foreign
deriving DecidableEq, Repr

def ValueKind.text : ValueKind → Text
  | empty => "none"
  | string => "string"
  | number => "number"
  | global => "global"
  | constant => "const"
  | slot => "local"
  | register => "register"
  | foreign => "unknown"

/-- A value.  The kind decides which fields count: `text` for literals, `name` for named
storage and registers, `base` and `offset` for stack slots, and `temp` for registers that
go back to the pool when they are released. -/
structure Value where
  kind : ValueKind := .empty
  name : Text := []
  type : Text := []
  text : Text := []
  offset : Int := 0
  base : Text := []
  temp : Bool := false
deriving DecidableEq, Repr

namespace Value

/-! ## Literals -/

def ofText (t : Text) : Value := { kind := .string, text := t, type := "str" }

/-- An integer literal of a given type. -/
def ofIntAs (n : Int) (type : Text) : Value :=
  { kind := .number, text := Text.ofInt n, type := type }

def ofInt (n : Int) : Value := ofIntAs n "int64"

/-- The shortest spelling of a floating-point number, with a fraction so that it never
reads as an integer. -/
def floatText (x : Binary64) : Text :=
  let t := x.toText
  if Text.hasAny ".eEnN" t then t else t ++ ".0"

/-- A floating-point literal of a given type. -/
def ofFloatAs (x : Binary64) (type : Text) : Value :=
  { kind := .number, text := floatText x, type := type }

def ofFloat (x : Binary64) : Value := ofFloatAs x "float"

/-- The literal that a numeral spells, with its spelling kept.  A signed decimal that fits
64 bits is an integer, every other numeral in range is floating. -/
def ofNumeral? (t : Text) : Option Value :=
  if (Text.toInt64? t).isSome then some { kind := .number, text := t, type := "int64" }
  else
    match Numeral.ofText? t with
    | some n => if n.inRange then some { kind := .number, text := t, type := "float" } else none
    | none => none

/-! ## Storage and registers -/

def ofGlobal (name type : Text) : Value := { kind := .global, name := name, type := type }

def ofConstant (name type : Text) : Value := { kind := .constant, name := name, type := type }

def ofSlot (name type base : Text) (offset : Int) : Value :=
  { kind := .slot, name := name, type := type, offset := offset, base := base }

def ofRegister (reg type : Text) (temp : Bool) : Value :=
  { kind := .register, name := reg, type := type, temp := temp }

/-! ## Queries -/

def withType (v : Value) (type : Text) : Value := { v with type := type }

/-- The value as an instruction operand. -/
def operand (v : Value) : Operand :=
  match v.kind with
  | .global | .constant => .direct v.name
  | .slot => .mem (.below v.base v.offset)
  | .register => .reg v.name
  | .number | .string => .literal v.text
  | .empty | .foreign => .literal []

def isRegister (v : Value) : Bool := v.kind = .register

/-- Whether the value is a memory reference. -/
def isMemory (v : Value) : Bool := v.kind = .global || v.kind = .constant || v.kind = .slot

def isFloat (v : Value) : Bool := TypePolicy.isFloat v.type

/-- A short description for people. -/
def describe (v : Value) : Text :=
  match v.kind with
  | .empty => "<none>"
  | .string => Text.quote v.text
  | .number => v.text ++ ":" ++ v.type
  | .register => "%" ++ v.name ++ ":" ++ v.type ++ (if v.temp then " (temp)" else "")
  | kind => kind.text ++ " " ++ v.operand.text ++ ":" ++ v.type

end Value

/-! ## Bindings -/

/-- Values under names.  A name is bound at most once. -/
abbrev Bindings := List (Text × Value)

namespace Bindings

def get? (b : Bindings) (name : Text) : Option Value := b.lookup name

def erase (b : Bindings) (name : Text) : Bindings := b.filter fun p => p.1 != name

/-- Binds a name, in place of its earlier value if it has one. -/
def insert (b : Bindings) (name : Text) (v : Value) : Bindings := (name, v) :: b.erase name

@[simp] theorem get?_erase_self (b : Bindings) (name : Text) :
    (b.erase name).get? name = none := by
  induction b with
  | nil => rfl
  | cons p r ih =>
    obtain ⟨n, v⟩ := p
    by_cases h : n = name
    · simpa [erase, get?, h] using ih
    · have hn : (name == n) = false := by simpa using Ne.symm h
      simpa [erase, get?, h, List.lookup_cons, hn] using ih

theorem get?_erase_of_ne (b : Bindings) {name other : Text} (h : other ≠ name) :
    (b.erase name).get? other = b.get? other := by
  induction b with
  | nil => rfl
  | cons p r ih =>
    obtain ⟨n, v⟩ := p
    by_cases hn : n = name
    · subst hn
      have ho : (other == n) = false := by simpa using h
      simpa [erase, get?, List.lookup_cons, ho] using ih
    · by_cases ho : other = n
      · simp [erase, get?, hn, ho]
      · have ho : (other == n) = false := by simpa using ho
        simpa [erase, get?, hn, List.lookup_cons, ho] using ih

theorem erase_of_get?_eq_none {b : Bindings} {name : Text} (h : b.get? name = none) :
    b.erase name = b := by
  rw [erase, List.filter_eq_self]
  intro p hp
  have hne : p.1 ≠ name := fun he =>
    List.lookup_eq_none_iff.mp h p hp |> fun hb => by simp [he] at hb
  simpa using hne

@[simp] theorem get?_insert_self (b : Bindings) (name : Text) (v : Value) :
    (b.insert name v).get? name = some v := by
  simp [insert, get?]

theorem get?_insert_of_ne (b : Bindings) {name other : Text} (v : Value) (h : other ≠ name) :
    (b.insert name v).get? other = b.get? other := by
  have ho : (other == name) = false := by simpa using h
  simpa [insert, get?, List.lookup_cons, ho] using get?_erase_of_ne b h

end Bindings

end Assembly
