import Assembly.Engine.Load
import Assembly.Proofs.Machine.Alias

/-!
# Widths

How many bytes a type has, and which bytes of its register a name stands for.  The words for sizes
are read as an assembler reads them.
-/

namespace Assembly

/-- A part of a physical register: its lowest byte, and how many bytes it has. -/
structure Part where
  start : Nat
  size : Nat
deriving DecidableEq, Repr

/-- The parts that the names of a register stand for, in the order of the names. -/
def registerParts : List Part := [⟨0, 8⟩, ⟨0, 4⟩, ⟨0, 2⟩, ⟨0, 1⟩, ⟨1, 1⟩]

/-- The part that a name of a general register stands for. -/
def part? (name : Text) : Option Part :=
  (registerNames.find? (·.contains name)).bind fun names => registerParts[names.idxOf name]?

theorem part?_of_length {name : Text} (h : 4 < name.length) : part? name = none := by
  have hshort : ∀ names ∈ registerNames, ∀ r ∈ names, r.length ≤ 4 := by decide
  have hnone : registerNames.find? (·.contains name) = none := by
    refine List.find?_eq_none.mpr fun names hnames hin => ?_
    have hle := hshort names hnames name (List.contains_iff_mem.mp hin)
    omega
  rw [part?, hnone]
  rfl

theorem Text.beq_eq_false_of_apply {s s' : Text} (p : Text → Bool) (h : p s = true)
    (h' : p s' = false) : (s == s') = false := by
  rw [beq_eq_false_iff_ne]
  rintro rfl
  cases h.symm.trans h'

/-! ## Words for sizes -/

/-- The bytes that a size keyword of an operand stands for. -/
def operandBytes? (keyword : Text) : Option Nat :=
  if keyword = "byte" then some 1
  else if keyword = "word" then some 2
  else if keyword = "dword" then some 4
  else if keyword = "qword" then some 8
  else none

/-- The bytes in a unit of data behind a directive. -/
def dataUnit? (word : Text) : Option Nat :=
  if word = "db" then some 1
  else if word = "dw" then some 2
  else if word = "dd" then some 4
  else if word = "dq" then some 8
  else none

theorem operandBytes?_text (s : OperandSize) : operandBytes? s.text = some s.bytes := by
  cases s <;> decide

theorem dataUnit?_text (d : Directive) : dataUnit? d.text = some d.unit := by
  cases d <;> decide

namespace Target

variable (t : Target)

theorem part?_intPool : ∀ r ∈ t.intPool, part? r = some ⟨0, t.wordSize⟩ := by
  cases t <;> decide

theorem part?_resize {r : Text} (hr : r ∈ t.intPool) {size : Nat}
    (hsize : size = 1 ∨ size = 2 ∨ size = 4 ∨ size = 8) (hle : size ≤ t.wordSize) :
    part? (t.resize r size) = some ⟨0, size⟩ := by
  have hall : ∀ r ∈ t.intPool, ∀ n ∈ [1, 2, 4, 8], n ≤ t.wordSize →
      part? (t.resize r n) = some ⟨0, n⟩ := by
    cases t <;> decide
  exact hall r hr size (by simpa using hsize) hle

theorem resize_wordSize {r : Text} (hr : r ∈ t.intPool) : t.resize r t.wordSize = r := by
  have hall : ∀ r ∈ t.intPool, t.resize r t.wordSize = r := by
    cases t <;> decide
  exact hall r hr

/-! ## Sizes of types -/

theorem declaredSize?_cases {type : Text} {n : Nat} (h : TypePolicy.declaredSize? type = some n) :
    n = 1 ∨ n = 2 ∨ n = 4 ∨ n = 8 := by
  rw [TypePolicy.declaredSize?] at h
  split at h
  · cases h
  · split at h <;> cases h <;> decide

theorem wordSize_cases : t.wordSize = 2 ∨ t.wordSize = 4 ∨ t.wordSize = 8 := by
  cases t <;> decide

theorem typeSize_cases (type : Text) :
    t.typeSize type = 1 ∨ t.typeSize type = 2 ∨ t.typeSize type = 4 ∨ t.typeSize type = 8 := by
  have hword : t.wordSize = 1 ∨ t.wordSize = 2 ∨ t.wordSize = 4 ∨ t.wordSize = 8 :=
    .inr t.wordSize_cases
  rw [typeSize, knownSize?]
  split
  · simp
  split
  · simp
  split
  · simpa using hword
  split
  · simp
  split
  · split <;> simp
  split
  · cases hsize : TypePolicy.declaredSize? type with
    | none => simpa using hword
    | some n => exact declaredSize?_cases hsize
  · simpa using hword

theorem knownSize?_of_isFloat {type : Text} (hfloat : TypePolicy.isFloat type)
    (hsingle : type ≠ "float") :
    t.knownSize? type =
      if TypePolicy.declaredSize? type = some 4 then some 4 else some 8 := by
  by_cases hdouble : type = Text.ofString "double"
  · subst hdouble
    rfl
  have hother (name : Text) (h : TypePolicy.isFloat name = false) : (type == name) = false :=
    Text.beq_eq_false_of_apply TypePolicy.isFloat hfloat h
  rw [knownSize?, if_neg (by simpa using hsingle), if_neg (by simpa using hdouble),
    hother _ (by decide : TypePolicy.isFloat "str" = false),
    hother _ (by decide : TypePolicy.isFloat "ptr" = false),
    hother _ (by decide : TypePolicy.isFloat "bool" = false),
    hother _ (by decide : TypePolicy.isFloat "char" = false), hfloat]
  simp only [Bool.or_self, Bool.false_eq_true, if_false, if_true]
  by_cases hsize : TypePolicy.declaredSize? type = some 4
  · rw [hsize]
    rfl
  · rw [if_neg hsize]
    split
    case h_1 h => exact absurd h hsize
    case h_2 => rfl

/-- A floating type has single or double precision. -/
theorem typeSize_of_isFloat {type : Text} (h : TypePolicy.isFloat type = true) :
    t.typeSize type = 4 ∨ t.typeSize type = 8 := by
  by_cases hsingle : type = Text.ofString "float"
  · subst hsingle
    exact .inl rfl
  · rw [typeSize, t.knownSize?_of_isFloat h hsingle]
    split <;> simp

theorem typeSize_typeOrWord (type : Text) : t.typeSize (t.typeOrWord type) = t.typeSize type := by
  rw [typeOrWord]
  cases type with
  | nil => cases t <;> decide
  | cons c r => rfl

theorem bytes_operandSize {size : Nat} (h : size = 1 ∨ size = 2 ∨ size = 4 ∨ size = 8) :
    (t.operandSize size).bytes = size := by
  rcases h with rfl | rfl | rfl | rfl <;> rfl

end Target

end Assembly
