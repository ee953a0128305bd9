import Assembly.Machine.Register

/-!
# Names of one register

Several names stand for parts of one physical register.  Writing to any of them changes
the register, so what code does to registers is said of the physical ones.  A physical
register goes by its widest name.
-/

namespace Assembly

/-- The names of each general register, widest first. -/
def registerNames : List (List Text) :=
  [["rax", "eax", "ax", "al", "ah"], ["rbx", "ebx", "bx", "bl", "bh"],
    ["rcx", "ecx", "cx", "cl", "ch"], ["rdx", "edx", "dx", "dl", "dh"],
    ["rsi", "esi", "si", "sil"], ["rdi", "edi", "di", "dil"],
    ["rbp", "ebp", "bp", "bpl"], ["rsp", "esp", "sp", "spl"],
    ["r8", "r8d", "r8w", "r8b"], ["r9", "r9d", "r9w", "r9b"],
    ["r10", "r10d", "r10w", "r10b"], ["r11", "r11d", "r11w", "r11b"],
    ["r12", "r12d", "r12w", "r12b"], ["r13", "r13d", "r13w", "r13b"],
    ["r14", "r14d", "r14w", "r14b"], ["r15", "r15d", "r15w", "r15b"]]

/-- The names that the wide target alone has: the low bytes of the index registers and of the
pointers, and all names of the registers that are numbered. -/
def wideNames : List Text :=
  (["sil", "dil", "bpl", "spl"] : List Text) ++ (registerNames.drop 8).flatten

/-- Whether the target has the name. -/
def Target.owns (t : Target) (name : Text) : Bool := t = .bits64 || !wideNames.contains name

/-- The physical register that a name belongs to; a name outside of the general registers
is a register by itself. -/
def physical (name : Text) : Text :=
  ((registerNames.find? (·.contains name)).bind List.head?).getD name

namespace Target

variable (t : Target)

theorem physical_aliases : ∀ p ∈ t.aliases, ∀ name ∈ p.2, physical name = physical p.1 := by
  cases t <;> decide

@[simp] theorem physical_resize (reg : Text) (size : Nat) :
    physical (t.resize reg size) = physical reg := by
  rw [resize]
  cases hnames : t.aliases.lookup reg with
  | none => rfl
  | some names =>
    have hmem : (reg, names) ∈ t.aliases := by
      obtain ⟨_, _, heq, -⟩ := List.lookup_eq_some_iff.mp hnames
      simp [heq]
    cases hplace : aliasPlace? size with
    | none => rfl
    | some place =>
      cases hname : names[place]? with
      | none => simp [hname]
      | some name =>
        have := t.physical_aliases (reg, names) hmem name (List.mem_of_getElem? hname)
        simpa [hname] using this

theorem physical_intPool :
    ∀ r ∈ t.intPool, physical r ≠ physical t.stackPointer ∧
      physical r ≠ physical t.basePointer := by
  cases t <;> decide

theorem physical_floatPool :
    ∀ r ∈ t.floatPool, physical r ≠ physical t.stackPointer ∧
      physical r ≠ physical t.basePointer ∧ ∀ s ∈ t.intPool, physical r ≠ physical s := by
  cases t <;> decide

theorem physical_injOn :
    ∀ r ∈ t.intPool, ∀ s ∈ t.intPool, physical r = physical s → r = s := by
  cases t <;> decide

end Target

end Assembly
