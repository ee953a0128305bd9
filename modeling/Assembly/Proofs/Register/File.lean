import Assembly.Machine.Register

/-!
# The register file

What handing out a register does.  A file hands out the first register of the pool that is
not in use; when there is none, a strict file refuses and a permissive one gives the first
register of the pool and stays as it was.
-/

namespace Assembly.RegisterFile

variable {f g : RegisterFile} {c : RegClass} {r : Text} {a : Allocation}

/-- What decides how a file hands out registers, besides those in use. -/
def kind (f : RegisterFile) : Target × Bool := (f.target, f.strict)

theorem kind_setInUse (f : RegisterFile) (c : RegClass) (regs : List Text) :
    (f.setInUse c regs).kind = f.kind := by
  cases c <;> rfl

@[simp] theorem setInUse_setInUse (f : RegisterFile) (c : RegClass) (regs regs' : List Text) :
    (f.setInUse c regs).setInUse c regs' = f.setInUse c regs' := by
  cases c <;> rfl

@[simp] theorem setInUse_inUse (f : RegisterFile) (c : RegClass) :
    f.setInUse c (f.inUse c) = f := by
  cases c <;> rfl

theorem filter_inUse_ne (h : r ∉ f.inUse c) : (f.inUse c).filter (· != r) = f.inUse c := by
  rw [List.filter_eq_self]
  intro s hs
  simpa using fun heq : s = r => h (heq ▸ hs)

theorem free_of_notMem (h : r ∉ f.inUse c) : f.free c r = f := by
  rw [free, filter_inUse_ne h, setInUse_inUse]

/-- Taking back a register that was just handed out leaves the file as it was. -/
theorem free_setInUse_append (h : r ∉ f.inUse c) :
    (f.setInUse c (f.inUse c ++ [r])).free c r = f := by
  rw [free, inUse_setInUse, setInUse_setInUse, List.filter_append, filter_inUse_ne h]
  simp

theorem alloc?_of_firstFree? (h : f.firstFree? c = some r) :
    f.alloc? c = some (⟨r, true⟩, f.setInUse c (f.inUse c ++ [r])) := by
  rw [alloc?, h]

theorem alloc?_of_full (h : f.firstFree? c = none) (ha : f.alloc? c = some (a, g)) :
    a.fresh = false ∧ g = f := by
  rw [alloc?, h] at ha
  dsimp only at ha
  split at ha
  · cases ha
  · rw [Option.map_eq_some_iff] at ha
    obtain ⟨r, -, hr⟩ := ha
    cases hr
    exact ⟨rfl, rfl⟩

theorem pool_ne_nil (f : RegisterFile) (c : RegClass) : f.pool c ≠ [] := by
  obtain ⟨t, strict, int, float⟩ := f
  cases c with
  | int => cases t <;> exact List.cons_ne_nil _ _
  | float => exact List.cons_ne_nil _ _

/-- Only a strict file whose registers are all in use refuses one. -/
theorem alloc?_eq_none_iff : f.alloc? c = none ↔ f.strict = true ∧ f.firstFree? c = none := by
  rw [alloc?]
  cases hfree : f.firstFree? c with
  | some r => simp
  | none =>
    cases hs : f.strict with
    | true => simp
    | false => simp [f.pool_ne_nil c]

theorem firstFree?_notMem (h : f.firstFree? c = some r) : r ∉ f.inUse c := by
  have hr := List.find?_some h
  simpa [uses] using hr

theorem firstFree?_mem_pool (h : f.firstFree? c = some r) : r ∈ f.pool c :=
  List.mem_of_find?_eq_some h

theorem uses_of_firstFree?_eq_none (h : f.firstFree? c = none) (hr : r ∈ f.pool c) :
    f.uses c r := by
  have hall := List.find?_eq_none.mp h r hr
  simpa using hall

theorem kind_alloc? (ha : f.alloc? c = some (a, g)) : g.kind = f.kind := by
  cases h : f.firstFree? c with
  | none => rw [(alloc?_of_full h ha).2]
  | some r =>
    rw [alloc?_of_firstFree? h] at ha
    cases ha
    exact kind_setInUse f c _

/-! ## The register that is handed out -/

/-- The next register of the class that the file hands out is `r`. -/
def Hands (f : RegisterFile) (c : RegClass) (r : Text) : Prop :=
  ∃ fresh g, f.alloc? c = some (⟨r, fresh⟩, g)

/-- A register comes from the free ones; a permissive file that has none left gives the
first of the pool. -/
theorem Hands.cases (h : f.Hands c r) :
    f.firstFree? c = some r ∨
      f.strict = false ∧ f.firstFree? c = none ∧ (f.pool c).head? = some r := by
  obtain ⟨fresh, g, ha⟩ := h
  cases hfree : f.firstFree? c with
  | some s =>
    rw [alloc?_of_firstFree? hfree] at ha
    cases ha
    exact .inl rfl
  | none =>
    rw [alloc?, hfree] at ha
    dsimp only at ha
    split at ha
    · cases ha
    · rename_i hs
      rw [Option.map_eq_some_iff] at ha
      obtain ⟨s, hs', heq⟩ := ha
      cases heq
      exact .inr ⟨by simpa using hs, rfl, hs'⟩

theorem Hands.mem_pool (h : f.Hands c r) : r ∈ f.pool c := by
  obtain hfree | ⟨-, -, hhead⟩ := h.cases
  · exact firstFree?_mem_pool hfree
  · exact List.mem_of_mem_head? hhead

theorem Hands.firstFree? (h : f.Hands c r) (hs : f.strict) : f.firstFree? c = some r := by
  obtain hfree | ⟨hp, -⟩ := h.cases
  · exact hfree
  · rw [hs] at hp
    cases hp

theorem uses_of_alloc? (ha : f.alloc? c = some (a, g)) : g.uses c a.reg := by
  cases hfree : f.firstFree? c with
  | some s =>
    rw [alloc?_of_firstFree? hfree] at ha
    cases ha
    simp [uses]
  | none =>
    have hp : a.reg ∈ f.pool c := Hands.mem_pool ⟨a.fresh, g, ha⟩
    rw [(alloc?_of_full hfree ha).2]
    exact uses_of_firstFree?_eq_none hfree hp

end Assembly.RegisterFile
