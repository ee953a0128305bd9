import Assembly.Engine.Request

/-!
# Names in code

The names that an instruction refers to: symbols, bases of addresses, and numbers as they
are spelled, which a caller may have spelled like a symbol.  A register operand is no
reference.

The functions of the target that choose instructions bring no names of their own, apart
from the registers that hold addresses.  What their instructions refer to comes from the
operand they are given.
-/

namespace Assembly

/-- The register or symbol that an address starts from. -/
def Address.base : Address → Text
  | direct b | above b _ | below b _ => b

@[simp] def Operand.references : Operand → List Text
  | sym name => [name]
  | literal spelling => [spelling]
  | mem a => [a.base]
  | sized _ o => o.references
  | reg _ | num _ | hex _ | char _ => []

def Instr.references (i : Instr) : List Text := i.operands.flatMap Operand.references

/-- What the value brings into an instruction. -/
def Value.references (v : Value) : List Text := v.operand.references

/-- The registers that emitted code uses as addresses. -/
def addressRegs : List Text := ["si", "sp", "esp", "rsp", "bp", "ebp", "rbp"]

namespace Instr

@[simp] theorem references_mk (m : Mnemonic) (os : List Operand) :
    (Instr.mk m os).references = os.flatMap Operand.references := rfl

@[simp] theorem references_push (r : Text) : (Instr.push r).references = [] := rfl

@[simp] theorem references_pop (r : Text) : (Instr.pop r).references = [] := rfl

end Instr

namespace Target

variable (t : Target)

theorem stackPointer_mem_addressRegs : t.stackPointer ∈ addressRegs := by
  cases t <;> decide

theorem basePointer_mem_addressRegs : t.basePointer ∈ addressRegs := by
  cases t <;> decide

@[simp] theorem references_sizedOperand (size : Nat) (v : Value) :
    (t.sizedOperand size v).references = v.references := rfl

theorem literal_references {v : Value} (h : v.kind = .number) :
    (Operand.literal v.text).references = v.references := by
  rw [Value.references, Value.operand, h]

@[simp] theorem references_intLoad (reg : Text) (v : Value) (type : Text) :
    (t.intLoad reg v type).references = v.references := by
  unfold intLoad
  by_cases hv : v.kind = .number
  · simp [hv, ← literal_references hv, Operand.references]
  · by_cases hm : v.isMemory ∧ t.typeSize type < t.wordSize
    · simp [hv, hm, Operand.references, references_sizedOperand]
    · simp [hv, hm, Operand.references, Value.references]

@[simp] theorem references_load (reg : Text) (v : Value) (type : Text) :
    (t.load reg v type).references = v.references := by
  unfold load
  split
  · simp [Operand.references, Value.references]
  · exact t.references_intLoad reg v type

theorem references_widening (v : Value) : ∀ i ∈ t.widening v, i.references = [] := by
  intro i hi
  simp only [widening] at hi
  split at hi
  · rw [List.mem_singleton.mp hi]
    rfl
  · cases hi

@[simp] theorem references_labelLoad (reg label : Text) :
    (t.labelLoad reg label).references = [label] := by
  unfold labelLoad
  split <;> rfl

theorem references_floatPush (v : Value) : ∀ i ∈ t.floatPush v, i.references ⊆ addressRegs := by
  intro i hi
  simp only [floatPush, List.mem_cons, List.not_mem_nil, or_false] at hi
  rcases hi with rfl | rfl
  · exact List.nil_subset _
  · simpa [Operand.references, Operand.direct, Address.base] using t.stackPointer_mem_addressRegs

@[simp] theorem references_drop (bytes : Nat) : (t.drop bytes).references = [] := rfl

@[simp] theorem references_resultMove (reg type : Text) : (t.resultMove reg type).references = [] := by
  unfold resultMove
  split <;> rfl

theorem references_intToInt (dst : Text) (v : Value) (type : Text) :
    (t.intToInt dst v type).references ⊆ v.references := by
  unfold intToInt
  by_cases hv : v.kind = .number
  · simp [hv, ← literal_references hv, Operand.references]
  · simp only [hv, if_false]
    split
    · split
      · exact List.nil_subset _
      · simp [Operand.references, references_sizedOperand]
    · split
      · exact List.nil_subset _
      · simp [Operand.references, Value.references]

theorem references_regToFloat (dst : Text) (v : Value) (type : Text) :
    ∀ i ∈ t.regToFloat dst v type, i.references = [] := by
  intro i hi
  simp only [regToFloat, List.mem_append, List.mem_singleton] at hi
  rcases hi with hi | rfl
  · split at hi
    · rw [List.mem_singleton.mp hi]
      rfl
    · cases hi
  · rfl

theorem references_operandToFloat (dst tmp : Text) (v : Value) (type : Text) :
    ∀ i ∈ t.operandToFloat dst tmp v type, i.references ⊆ v.references := by
  intro i hi
  simp only [operandToFloat, List.mem_cons, List.not_mem_nil, or_false] at hi
  rcases hi with rfl | rfl
  · by_cases hv : v.kind = .number
    · simp [hv, ← literal_references hv, Operand.references]
    · rw [if_neg hv]
      split
      · simp [Operand.references, references_sizedOperand]
      · simp [Operand.references, Value.references]
  · exact List.nil_subset _

@[simp] theorem references_floatToInt (dst src srcType type : Text) :
    (t.floatToInt dst src srcType type).references = [] := rfl

@[simp] theorem references_floatToFloat (dst : Text) (v : Value) (type : Text) :
    (t.floatToFloat dst v type).references = v.references := by
  unfold floatToFloat
  dsimp only
  split
  · simp [Operand.references, Value.references]
  · split <;> simp [Operand.references, Value.references]

@[simp] theorem references_narrow (reg : Text) (v : Value) (type : Text) :
    (t.narrow reg v type).references = v.references := by
  unfold narrow
  split <;> simp [Operand.references, Value.references]

theorem references_singlePush (reg : Text) : ∀ i ∈ t.singlePush reg, i.references ⊆ addressRegs := by
  intro i hi
  cases t with
  | bits16 =>
    simp only [singlePush, List.mem_cons, List.not_mem_nil, or_false] at hi
    rcases hi with rfl | rfl | rfl
    · exact List.nil_subset _
    · exact List.nil_subset _
    · exact List.cons_subset_cons _ (List.nil_subset _)
  | bits32 =>
    simp only [singlePush, List.mem_cons, List.not_mem_nil, or_false] at hi
    rcases hi with rfl | rfl
    · exact List.nil_subset _
    · exact List.cons_subset.mpr ⟨bits32.stackPointer_mem_addressRegs, List.nil_subset _⟩
  | bits64 =>
    simp only [singlePush, List.mem_cons, List.not_mem_nil, or_false] at hi
    rcases hi with rfl | rfl
    · exact List.nil_subset _
    · exact List.cons_subset.mpr ⟨bits64.stackPointer_mem_addressRegs, List.nil_subset _⟩

theorem references_writeCall (label : Text) (size : Nat) :
    ∀ i ∈ t.writeCall label size, i.references ⊆ [label] := by
  intro i hi
  cases t <;>
    simp only [writeCall, writeArgs, List.mem_append, List.mem_cons, List.not_mem_nil, or_false] at hi
  · rcases hi with (rfl | rfl | rfl | rfl) | rfl <;> simp [Operand.references, trap]
  · rcases hi with (rfl | rfl | rfl | rfl) | rfl <;> simp [Operand.references, trap]
  · rcases hi with (rfl | rfl | rfl | rfl) | rfl <;>
      simp [Operand.references, trap, Operand.direct, Address.base]

theorem references_exitCall (code : Int) : ∀ i ∈ t.exitCall code, i.references = [] := by
  intro i hi
  cases t <;>
    simp only [exitCall, exitArgs, List.mem_append, List.mem_cons, List.not_mem_nil, or_false] at hi
  · rcases hi with (rfl | rfl) | rfl <;> rfl
  · rcases hi with (rfl | rfl) | rfl
    · rfl
    · split <;> rfl
    · rfl
  · rcases hi with (rfl | rfl) | rfl <;> rfl

theorem references_fetch (reg type : Text) (index : Nat) :
    (t.fetch reg type (t.paramSlot index)).references ⊆ addressRegs := by
  have hbase : [t.basePointer] ⊆ addressRegs := by
    simpa using t.basePointer_mem_addressRegs
  unfold fetch paramSlot
  dsimp only
  split
  · exact hbase
  · split
    · exact hbase
    · exact hbase

@[simp] theorem references_intReturn (v : Value) : (t.intReturn v).references = v.references := by
  unfold intReturn
  dsimp only
  split
  · simp [Operand.references, references_sizedOperand]
  · simp [Operand.references, Value.references]

@[simp] theorem references_floatReturn (v : Value) : (t.floatReturn v).references = v.references := by
  simp [floatReturn, Operand.references, Value.references]

end Target

end Assembly
