import Assembly.Proofs.Machine.Process

/-!
# Passages

Proofs about routines go line by line.  A passage says that code leads from one place to another,
that it changes no register outside of a list, and that it stores in one area only.  There is a
lemma for each kind of line that extends a passage by the line, with the process after it spelled
out, so that the facts about a whole block are read off its last process.
-/

namespace Assembly

/-- Whether an instruction chooses the next line. -/
def Mnemonic.jumps : Mnemonic → Bool
  | .jmp | .jz | .jnz | .jns | .jae | .loop => true
  | _ => false

namespace Process

variable {t : Target} {env : Text → t.Word} {code rest : List Line} {regs : List Text}
  {area : t.Word → Prop} {p q q' : Process t} {d r name : Text} {x y : t.Word} {s : Operand}
  {part : Part} {n : Nat} {a : t.Word}

theorem step_instr {i : Instr} (hi : i.mnemonic.jumps = false) :
    step env code (.instr i :: rest, p) = (p.exec env i).map (rest, ·) := by
  obtain ⟨m, ops⟩ := i
  cases m <;> first | rfl | cases hi

/-! ## Registers and memory after a change -/

theorem reg_set (p : Process t) (d name : Text) (x : t.Word) :
    (p.set d x).reg name = if physical name = physical d then x else p.reg name := rfl

@[simp] theorem reg_set_self (p : Process t) (d : Text) (x : t.Word) : (p.set d x).reg d = x :=
  if_pos rfl

theorem reg_set_of_ne (p : Process t) (x : t.Word) (h : physical name ≠ physical d) :
    (p.set d x).reg name = p.reg name :=
  if_neg h

theorem reg_put_self (p : Process t) (d : Text) (part : Part) (x : BitVec (8 * part.size)) :
    (p.put d part x).reg d = part.replace (p.reg d) x :=
  if_pos rfl

@[simp] theorem reg_withFlags (p : Process t) (f : StatusFlags) (name : Text) :
    (p.withFlags f).reg name = p.reg name := rfl

@[simp] theorem reg_store (p : Process t) (a : t.Word) (n : Nat) (x : BitVec (8 * n)) (name : Text) :
    (p.store a n x).reg name = p.reg name := rfl

@[simp] theorem mem_set (p : Process t) (d : Text) (x : t.Word) : (p.set d x).mem = p.mem := rfl

@[simp] theorem mem_withFlags (p : Process t) (f : StatusFlags) : (p.withFlags f).mem = p.mem := rfl

@[simp] theorem mem_store (p : Process t) (a : t.Word) (n : Nat) (x : BitVec (8 * n)) :
    (p.store a n x).mem = p.mem.write a n x := rfl

@[simp] theorem output_withFlags (p : Process t) (f : StatusFlags) :
    (p.withFlags f).output = p.output := rfl

theorem sp_eq (p : Process t) : p.sp = p.reg t.stackPointer := rfl

theorem put_full (p : Process t) (d : Text) (x : t.Word) : p.put d ⟨0, t.wordSize⟩ x = p.set d x :=
  congrArg (fun c => { p with cpu := c }) (Cpu.put_full p.cpu d x)

theorem value?_full (h : t.view? r = some ⟨0, t.wordSize⟩) :
    p.value? env t.wordSize (.reg r) = some (p.reg r) := by
  have hvalue : p.cpu.value? env t.wordSize (.reg r) = _ := Cpu.value?_full h
  exact hvalue

theorem value?_part (h : t.view? r = some part) : p.value? env part.size (.reg r) =
    some ((p.reg r).extractLsb' (8 * part.start) (8 * part.size)) := by
  have hvalue : p.cpu.value? env part.size (.reg r) = _ := Cpu.value?_reg h
  exact hvalue

theorem extract_replace (part : Part) (hroom : part.start + part.size ≤ t.wordSize)
    (hfour : part.size = 4 → part.start = 0) (old : t.Word) (x : BitVec (8 * part.size)) :
    (part.replace old x).extractLsb' (8 * part.start) (8 * part.size) = x := by
  refine BitVec.eq_of_getLsbD_eq fun j hj => ?_
  have hin : 8 * part.start + j < 8 * t.wordSize := by omega
  rw [Part.replace]
  split
  case isTrue h =>
    rw [hfour h] at hin ⊢
    simp [hj]
    omega
  case isFalse =>
    have hnot : ¬ 8 * part.start + j < 8 * part.start := by omega
    simp [hj, hin, hnot]

/-! ## Registers that get answers -/

section

variable {rs : List Text}

@[simp] theorem mem_clobber (p : Process t) (rs : List Text) : (p.clobber rs).mem = p.mem := by
  induction rs generalizing p with
  | nil => rfl
  | cons r rs ih => exact ih (p.next.set r (p.answer _))

@[simp] theorem output_clobber (p : Process t) (rs : List Text) :
    (p.clobber rs).output = p.output := by
  induction rs generalizing p with
  | nil => rfl
  | cons r rs ih => exact ih (p.next.set r (p.answer _))

theorem reg_clobber_of_not_mem (p : Process t) (h : physical name ∉ rs.map physical) :
    (p.clobber rs).reg name = p.reg name := by
  induction rs generalizing p with
  | nil => rfl
  | cons r rs ih =>
    rw [List.map_cons, List.mem_cons, not_or] at h
    exact (ih (p.next.set r (p.answer _)) h.2).trans (reg_set_of_ne _ _ h.1)

theorem reg_clobber_of_mem (p : Process t) (h : physical name ∈ rs.map physical) :
    ∃ k, (p.clobber rs).reg name = (p.answers k).setWidth _ := by
  induction rs generalizing p with
  | nil => exact absurd h List.not_mem_nil
  | cons r rs ih =>
    by_cases hlater : physical name ∈ rs.map physical
    · obtain ⟨k, hk⟩ := ih (p.next.set r (p.answer _)) hlater
      exact ⟨k + 1, hk⟩
    · have hself : physical name = physical r := by
        rw [List.map_cons, List.mem_cons] at h
        exact h.resolve_right hlater
      refine ⟨0, (reg_clobber_of_not_mem (p.next.set r (p.answer _)) hlater).trans ?_⟩
      exact if_pos hself

end

/-! ## What is touched -/

/-- Outside of some registers and of an area of memory nothing is changed, and nothing was stored.
The answers to come are some of those that there were. -/
structure Touches (regs : List Text) (area : t.Word → Prop) (p q : Process t) : Prop where
  regs : ∀ name, name ∉ regs → q.cpu.regs name = p.cpu.regs name
  mem : ∀ b, ¬ area b → q.mem b = p.mem b
  stores : ∃ new, q.stores = new ++ p.stores ∧ ∀ b ∈ new, area b
  answers : ∀ k, ∃ j, q.answers k = p.answers j

namespace Touches

theorem refl (p : Process t) : Touches regs area p p :=
  ⟨fun _ _ => rfl, fun _ _ => rfl, ⟨[], rfl, List.forall_mem_nil _⟩, fun k => ⟨k, rfl⟩⟩

theorem trans (h : Touches regs area p q) (h' : Touches regs area q q') :
    Touches regs area p q' := by
  obtain ⟨new, hnew, harea⟩ := h.stores
  obtain ⟨new', hnew', harea'⟩ := h'.stores
  refine ⟨fun name hname => (h'.regs name hname).trans (h.regs name hname),
    fun b hb => (h'.mem b hb).trans (h.mem b hb), ⟨new' ++ new, ?_, ?_⟩, fun k => ?_⟩
  · rw [hnew', hnew, List.append_assoc]
  · exact List.forall_mem_append.mpr ⟨harea', harea⟩
  · obtain ⟨i, hi⟩ := h'.answers k
    obtain ⟨j, hj⟩ := h.answers i
    exact ⟨j, hi.trans hj⟩

theorem mono {regs' : List Text} {area' : t.Word → Prop} (h : Touches regs area p q)
    (hregs : regs ⊆ regs') (harea : ∀ b, area b → area' b) : Touches regs' area' p q := by
  obtain ⟨new, hnew, hin⟩ := h.stores
  exact ⟨fun name hname => h.regs name fun hin => hname (hregs hin),
    fun b hb => h.mem b fun hin => hb (harea b hin), ⟨new, hnew, fun b hb => harea b (hin b hb)⟩,
    h.answers⟩

theorem reg (h : Touches regs area p q) (hname : physical name ∉ regs) : q.reg name = p.reg name :=
  h.regs _ hname

theorem set (h : Touches regs area p q) (hd : physical d ∈ regs) (x : t.Word) :
    Touches regs area p (q.set d x) := by
  refine ⟨fun name hname => ?_, h.mem, h.stores, h.answers⟩
  have hne : name ≠ physical d := fun heq => hname (heq ▸ hd)
  exact (Cpu.regs_set_of_ne q.cpu x hne).trans (h.regs name hname)

theorem put (h : Touches regs area p q) (hd : physical d ∈ regs) (x : BitVec (8 * part.size)) :
    Touches regs area p (q.put d part x) :=
  h.set hd _

theorem withFlags (h : Touches regs area p q) (f : StatusFlags) :
    Touches regs area p (q.withFlags f) :=
  ⟨h.regs, h.mem, h.stores, h.answers⟩

theorem next (h : Touches regs area p q) : Touches regs area p q.next :=
  ⟨h.regs, h.mem, h.stores, fun k => h.answers (k + 1)⟩

theorem write (h : Touches regs area p q) (bytes : Text) : Touches regs area p (q.write bytes) :=
  ⟨h.regs, h.mem, h.stores, h.answers⟩

theorem store (h : Touches regs area p q) (ha : ∀ b, Within a n b → area b) (x : BitVec (8 * n)) :
    Touches regs area p (q.store a n x) := by
  obtain ⟨new, hnew, hin⟩ := h.stores
  refine ⟨h.regs, fun b hb => ?_, ⟨(List.range n).map (a + BitVec.ofNat _ ·) ++ new, ?_, ?_⟩,
    h.answers⟩
  · rw [mem_store, Memory.write_of_not_within fun hw => hb (ha b hw)]
    exact h.mem b hb
  · rw [List.append_assoc, ← hnew]
    rfl
  · refine List.forall_mem_append.mpr ⟨fun b hb => ?_, hin⟩
    obtain ⟨k, hk, rfl⟩ := List.mem_map.mp hb
    exact ha _ ⟨k, List.mem_range.mp hk, rfl⟩

theorem clobber (h : Touches regs area p q) {rs : List Text} (hrs : ∀ r ∈ rs, physical r ∈ regs) :
    Touches regs area p (q.clobber rs) := by
  induction rs generalizing q with
  | nil => exact h
  | cons r rs ih =>
    exact ih (h.next.set (hrs r List.mem_cons_self) _) fun s hs => hrs s (List.mem_cons_of_mem r hs)

/-- What is in memory stays there if it is apart from the area. -/
theorem read (h : Touches regs area p q) {a : t.Word} {n : Nat} (ha : ∀ b, Within a n b → ¬ area b) :
    q.mem.read a n = p.mem.read a n :=
  Memory.read_congr fun k hk => h.mem _ (ha _ ⟨k, hk, rfl⟩)

end Touches

/-! ## Passages -/

/-- The code leads from one place to another, and touches the registers and the area only. -/
structure Passage (env : Text → t.Word) (code : List Line) (regs : List Text)
    (area : t.Word → Prop) (s s' : List Line × Process t) : Prop where
  reaches : Reaches env code s s'
  touches : Touches regs area s.2 s'.2

namespace Passage

variable {s₀ s₁ s₂ : List Line × Process t} {i : Instr}

theorem refl (s : List Line × Process t) : Passage env code regs area s s := ⟨.refl, .refl _⟩

theorem trans (h : Passage env code regs area s₀ s₁) (h' : Passage env code regs area s₁ s₂) :
    Passage env code regs area s₀ s₂ :=
  ⟨h.reaches.trans h'.reaches, h.touches.trans h'.touches⟩

theorem mono {regs' : List Text} {area' : t.Word → Prop} (h : Passage env code regs area s₀ s₁)
    (hregs : regs ⊆ regs') (harea : ∀ b, area b → area' b) :
    Passage env code regs' area' s₀ s₁ :=
  ⟨h.reaches, h.touches.mono hregs harea⟩

theorem step (h : Passage env code regs area s₀ s₁) (hs : Process.step env code s₁ = some s₂)
    (ht : Touches regs area s₁.2 s₂.2) : Passage env code regs area s₀ s₂ :=
  ⟨h.reaches.tail hs, h.touches.trans ht⟩

/-! ### Control -/

theorem label (h : Passage env code regs area s₀ (.label name :: rest, q)) :
    Passage env code regs area s₀ (rest, q) :=
  h.step rfl (.refl _)

theorem jump {rest' : List Line}
    (h : Passage env code regs area s₀ (Line.op .jmp [.sym name] :: rest, q))
    (hseek : seek code name = some rest') : Passage env code regs area s₀ (rest', q) := by
  refine h.step ?_ (.refl _)
  show (seek code name).map (·, q) = _
  rw [hseek, Option.map_some]

theorem jumpIf {m : Mnemonic} {rest' : List Line} (taken : Bool)
    (h : Passage env code regs area s₀ (Line.op m [.sym name] :: rest, q))
    (hm : Process.step env code (Line.op m [.sym name] :: rest, q) =
      branch code rest q (some taken) [.sym name])
    (hseek : seek code name = some rest') :
    Passage env code regs area s₀ (if taken then rest' else rest, q) := by
  refine h.step (hm.trans ?_) (.refl _)
  cases taken with
  | false => rfl
  | true =>
    show (seek code name).map (·, q) = _
    rw [hseek, Option.map_some]
    rfl

/-! ### Instructions -/

theorem exec (h : Passage env code regs area s₀ (.instr i :: rest, q))
    (hi : i.mnemonic.jumps = false) (hq : q.exec env i = some q')
    (ht : Touches regs area q q') : Passage env code regs area s₀ (rest, q') := by
  refine h.step ?_ ht
  rw [step_instr hi, hq, Option.map_some]

theorem mov (h : Passage env code regs area s₀ (Line.op .mov [.reg d, s] :: rest, q))
    (hd : t.view? d = some ⟨0, t.wordSize⟩) (hx : q.value? env t.wordSize s = some x)
    (hregs : physical d ∈ regs) : Passage env code regs area s₀ (rest, q.set d x) := by
  refine h.exec rfl ?_ ((Touches.refl q).set hregs x)
  show q.mov env [.reg d, s] = _
  simp only [Process.mov, hd, Option.bind_some, hx, Option.map_some, put_full]

theorem movPart {x : BitVec (8 * part.size)}
    (h : Passage env code regs area s₀ (Line.op .mov [.reg d, s] :: rest, q))
    (hd : t.view? d = some part) (hx : q.value? env part.size s = some x)
    (hregs : physical d ∈ regs) : Passage env code regs area s₀ (rest, q.put d part x) := by
  refine h.exec rfl ?_ ((Touches.refl q).put hregs x)
  show q.mov env [.reg d, s] = _
  simp only [Process.mov, hd, Option.bind_some, hx, Option.map_some]

theorem storeSized {size : OperandSize} {addr : Address} {x : BitVec (8 * size.bytes)}
    (h : Passage env code regs area s₀ (Line.op .mov [.sized size (.mem addr), s] :: rest, q))
    (ha : q.cpu.address? env addr = some a) (hx : q.value? env size.bytes s = some x)
    (hs : ∀ b, Within a size.bytes b → area b) :
    Passage env code regs area s₀ (rest, q.store a size.bytes x) := by
  refine h.exec rfl ?_ ((Touches.refl q).store hs x)
  show q.mov env [.sized size (.mem addr), s] = _
  simp only [Process.mov, hx, Option.bind_some, storeAt, ha, Option.map_some]

theorem storeReg {addr : Address}
    (h : Passage env code regs area s₀ (Line.op .mov [.mem addr, .reg r] :: rest, q))
    (ha : q.cpu.address? env addr = some a) (hr : t.view? r = some part)
    (hs : ∀ b, Within a part.size b → area b) :
    Passage env code regs area s₀ (rest, q.store a part.size
      ((q.reg r).extractLsb' (8 * part.start) (8 * part.size))) := by
  refine h.exec rfl ?_ ((Touches.refl q).store hs _)
  show q.mov env [.mem addr, .reg r] = _
  simp only [Process.mov, hr, Option.bind_some, value?_part hr, storeAt, ha, Option.map_some]

theorem lea {addr : Address}
    (h : Passage env code regs area s₀ (Line.op .lea [.reg d, .mem addr] :: rest, q))
    (hd : t.view? d = some ⟨0, t.wordSize⟩) (ha : q.cpu.address? env addr = some a)
    (hregs : physical d ∈ regs) : Passage env code regs area s₀ (rest, q.set d a) := by
  refine h.exec rfl ?_ ((Touches.refl q).set hregs a)
  show q.lea env [.reg d, .mem addr] = _
  simp only [Process.lea, hd, if_true, ha, Option.map_some]

theorem push (h : Passage env code regs area s₀ (Line.op .push [.reg r] :: rest, q))
    (hr : t.view? r = some ⟨0, t.wordSize⟩) (hregs : physical t.stackPointer ∈ regs)
    (hs : ∀ b, Within (q.sp - BitVec.ofNat _ t.wordSize) t.wordSize b → area b) :
    Passage env code regs area s₀ (rest, q.push (q.reg r)) := by
  refine h.exec rfl ?_ (((Touches.refl q).set hregs _).store hs _)
  show q.pushOf env [.reg r] = _
  rw [pushOf, value?_full hr, Option.map_some]

theorem pop (h : Passage env code regs area s₀ (Line.op .pop [.reg r] :: rest, q))
    (hr : t.view? r = some ⟨0, t.wordSize⟩) (hregs : physical t.stackPointer ∈ regs)
    (hregs' : physical r ∈ regs) :
    Passage env code regs area s₀ (rest, q.drop.set r q.top) := by
  refine h.exec rfl ?_ (((Touches.refl q).set hregs _).set hregs' _)
  show q.popTo [.reg r] = _
  rw [popTo, if_pos hr]

theorem combine {m : Mnemonic} (f : {n : Nat} → BitVec n → BitVec n → BitVec n)
    (carry : {n : Nat} → BitVec n → BitVec n → Bool) {x y : BitVec (8 * part.size)}
    (h : Passage env code regs area s₀ (Line.op m [.reg d, s] :: rest, q))
    (hm : q.exec env ⟨m, [.reg d, s]⟩ = q.combine env f carry [.reg d, s]) (hj : m.jumps = false)
    (hd : t.view? d = some part) (hx : q.value? env part.size (.reg d) = some x)
    (hy : q.value? env part.size s = some y) (hregs : physical d ∈ regs) :
    Passage env code regs area s₀
      (rest, (q.put d part (f x y)).withFlags (.ofResult (f x y) (some (carry x y)))) := by
  refine h.exec hj (hm.trans ?_) (((Touches.refl q).put hregs _).withFlags _)
  simp only [Process.combine, hd, Option.bind_eq_bind, Option.bind_some, hx, hy]
  rfl

theorem addPart {y : BitVec (8 * part.size)}
    (h : Passage env code regs area s₀ (Line.op .add [.reg d, s] :: rest, q))
    (hd : t.view? d = some part) (hy : q.value? env part.size s = some y)
    (hregs : physical d ∈ regs) :
    ∃ f, Passage env code regs area s₀ (rest, (q.put d part
      ((q.reg d).extractLsb' (8 * part.start) (8 * part.size) + y)).withFlags f) :=
  ⟨_, h.combine (· + ·) (fun {n} x y => 2 ^ n ≤ x.toNat + y.toNat) rfl rfl hd (value?_part hd) hy
    hregs⟩

theorem sub (h : Passage env code regs area s₀ (Line.op .sub [.reg d, s] :: rest, q))
    (hd : t.view? d = some ⟨0, t.wordSize⟩) (hy : q.value? env t.wordSize s = some y)
    (hregs : physical d ∈ regs) :
    ∃ f, Passage env code regs area s₀ (rest, (q.set d (q.reg d - y)).withFlags f) := by
  have hsub := h.combine (· - ·) (fun x y => x.toNat < y.toNat) rfl rfl hd (value?_full hd) hy hregs
  rw [put_full] at hsub
  exact ⟨_, hsub⟩

theorem xorSelf (h : Passage env code regs area s₀ (Line.op .xor [.reg d, .reg d] :: rest, q))
    (hd : t.view? d = some ⟨0, t.wordSize⟩) (hregs : physical d ∈ regs) :
    ∃ f, Passage env code regs area s₀ (rest, (q.set d 0).withFlags f) := by
  have hxor := h.combine (· ^^^ ·) (fun _ _ => false) rfl rfl hd (value?_full hd) (value?_full hd)
    hregs
  rw [put_full, BitVec.xor_self] at hxor
  exact ⟨_, hxor⟩

theorem modify {m : Mnemonic} (f : {n : Nat} → BitVec n → BitVec n)
    (carry : {n : Nat} → BitVec n → Option Bool)
    (h : Passage env code regs area s₀ (Line.op m [.reg d] :: rest, q))
    (hm : q.exec env ⟨m, [.reg d]⟩ = q.modify env f carry [.reg d]) (hj : m.jumps = false)
    (hd : t.view? d = some ⟨0, t.wordSize⟩) (hregs : physical d ∈ regs) :
    Passage env code regs area s₀ (rest, (q.set d (f (q.reg d))).withFlags
      (.ofResult (f (q.reg d)) (carry (q.reg d)))) := by
  refine h.exec hj (hm.trans ?_) (((Touches.refl q).set hregs _).withFlags _)
  simp only [Process.modify, hd, Option.bind_eq_bind, Option.bind_some, value?_full hd, put_full]
  rfl

theorem inc (h : Passage env code regs area s₀ (Line.op .inc [.reg d] :: rest, q))
    (hd : t.view? d = some ⟨0, t.wordSize⟩) (hregs : physical d ∈ regs) :
    ∃ f, Passage env code regs area s₀ (rest, (q.set d (q.reg d + 1)).withFlags f) :=
  ⟨_, h.modify (· + 1) (fun _ => q.flags.carry) rfl rfl hd hregs⟩

theorem dec (h : Passage env code regs area s₀ (Line.op .dec [.reg d] :: rest, q))
    (hd : t.view? d = some ⟨0, t.wordSize⟩) (hregs : physical d ∈ regs) :
    ∃ f, Passage env code regs area s₀ (rest, (q.set d (q.reg d - 1)).withFlags f) :=
  ⟨_, h.modify (· - 1) (fun _ => q.flags.carry) rfl rfl hd hregs⟩

theorem neg (h : Passage env code regs area s₀ (Line.op .neg [.reg d] :: rest, q))
    (hd : t.view? d = some ⟨0, t.wordSize⟩) (hregs : physical d ∈ regs) :
    ∃ f, Passage env code regs area s₀ (rest, (q.set d (- q.reg d)).withFlags f) :=
  ⟨_, h.modify (- ·) (fun x => some (x ≠ 0)) rfl rfl hd hregs⟩

theorem testSelf (h : Passage env code regs area s₀ (Line.op .test [.reg d, .reg d] :: rest, q))
    (hd : t.view? d = some ⟨0, t.wordSize⟩) : Passage env code regs area s₀
      (rest, q.withFlags (.ofResult (q.reg d) (some false))) := by
  refine h.exec rfl ?_ ((Touches.refl q).withFlags _)
  show q.test env [.reg d, .reg d] = _
  simp only [Process.test, hd, Option.bind_eq_bind, Option.bind_some, value?_full hd,
    BitVec.and_self]
  rfl

/-- With the upper half of the pair cleared the quotient fits. -/
theorem div (h : Passage env code regs area s₀ (Line.op .div [.reg d] :: rest, q))
    (hd : t.view? d = some ⟨0, t.wordSize⟩) (hupper : q.reg "rdx" = 0) (hzero : q.reg d ≠ 0)
    (hrax : physical "rax" ∈ regs) (hrdx : physical "rdx" ∈ regs) :
    Passage env code regs area s₀ (rest, ((q.set "rax"
      (BitVec.ofNat _ ((q.reg "rax").toNat / (q.reg d).toNat))).set "rdx"
        (BitVec.ofNat _ ((q.reg "rax").toNat % (q.reg d).toNat))).withFlags .undefined) := by
  have hnone : (q.reg "rdx").toNat = 0 := by simp [hupper]
  have hfits : ¬ (q.reg d = 0 ∨
      2 ^ (8 * t.wordSize) ≤ (q.reg "rax").toNat / (q.reg d).toNat) := by
    rintro (h0 | hover)
    · exact hzero h0
    · have hle := Nat.div_le_self (q.reg "rax").toNat (q.reg d).toNat
      have hlt := (q.reg "rax").isLt
      omega
  refine h.exec rfl ?_ ((((Touches.refl q).set hrax _).set hrdx _).withFlags _)
  show q.divide env [.reg d] = _
  simp only [Process.divide, value?_full hd, hnone, Option.bind_eq_bind, Option.bind_some,
    Nat.zero_mul, Nat.zero_add, if_neg hfits]
  rfl

theorem loop {rest' : List Line}
    (h : Passage env code regs area s₀ (Line.op .loop [.sym name] :: rest, q))
    (hseek : seek code name = some rest') (hregs : physical "rcx" ∈ regs) :
    Passage env code regs area s₀ (if q.reg "rcx" - 1 ≠ 0 then rest' else rest,
      q.set "rcx" (q.reg "rcx" - 1)) := by
  refine h.step ?_ ((Touches.refl q).set hregs _)
  show branch code rest (q.set "rcx" (q.reg "rcx" - 1)) (some (q.reg "rcx" - 1 ≠ 0)) [.sym name] = _
  simp only [branch, Option.bind_some, hseek, Option.map_some, decide_eq_true_eq]
  split <;> rfl

/-! ### Floating-point instructions -/

theorem skip (h : Passage env code regs area s₀ (.instr i :: rest, q))
    (hi : i.mnemonic.jumps = false) (hq : q.exec env i = some q) :
    Passage env code regs area s₀ (rest, q) :=
  h.exec hi hq (.refl q)

theorem storeAnswer (addr : Address) (n : Nat)
    (h : Passage env code regs area s₀ (.instr i :: rest, q))
    (hi : i.mnemonic.jumps = false) (hq : q.exec env i = q.storeAnswer env addr n)
    (ha : q.cpu.address? env addr = some a) (hs : ∀ b, Within a n b → area b) :
    Passage env code regs area s₀ (rest, q.next.store a n (q.answer _)) := by
  have haddr : q.next.cpu.address? env addr = some a := ha
  refine h.exec hi (hq.trans ?_) ((Touches.refl q).next.store hs _)
  rw [Process.storeAnswer, storeAt, haddr, Option.map_some]

theorem putAnswer (h : Passage env code regs area s₀ (.instr i :: rest, q))
    (hi : i.mnemonic.jumps = false) (hq : q.exec env i = q.putAnswer d)
    (hd : t.view? d = some part) (hregs : physical d ∈ regs) :
    Passage env code regs area s₀ (rest, q.next.put d part (q.answer _)) := by
  refine h.exec hi (hq.trans ?_) ((Touches.refl q).next.put hregs _)
  rw [Process.putAnswer, hd, Option.map_some]

/-- The system call appends bytes of the memory to the output. -/
theorem trap (h : Passage env code regs area s₀ (.instr t.trap :: rest, q))
    (hnumber : (q.reg "rax").extractLsb' (8 * t.writeNumberPart.start)
      (8 * t.writeNumberPart.size) = BitVec.ofNat _ t.writeNumber)
    (hfile : q.reg t.writeFile = 1) (hregs : ∀ r ∈ t.trapClobbers, physical r ∈ regs) :
    ∃ q', Passage env code regs area s₀ (rest, q') ∧
      q'.output = q.output ++ q.mem.text (q.reg t.writeStart) (q.reg t.writeLength).toNat ∧
      q'.mem = q.mem ∧
      (∀ name, physical name ∉ t.trapClobbers.map physical → q'.reg name = q.reg name) ∧
      ∀ name, physical name ∈ t.trapClobbers.map physical →
        ∃ k, q'.reg name = (q.answers k).setWidth _ := by
  have hexec : q.exec env t.trap = q.trap := by cases t <;> rfl
  refine ⟨(((q.write (q.mem.text (q.reg t.writeStart) (q.reg t.writeLength).toNat)).clobber
    t.trapClobbers).withFlags .undefined), h.exec (by cases t <;> rfl) (hexec.trans ?_)
    ((((Touches.refl q).write _).clobber hregs).withFlags _), ?_, ?_, ?_, ?_⟩
  · rw [Process.trap, if_pos ⟨hnumber, hfile⟩]
  · rw [output_withFlags, output_clobber]
    rfl
  · rw [mem_withFlags, mem_clobber]
    rfl
  · exact fun name hname => reg_clobber_of_not_mem _ hname
  · exact fun name hname => reg_clobber_of_mem (q.write _) hname

end Passage

end Process

end Assembly
