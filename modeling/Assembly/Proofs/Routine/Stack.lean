import Assembly.Routine.PrintInt
import Assembly.Proofs.Frame.Restoration
import Assembly.Proofs.Machine.Passage

/-!
# The frame of a routine

A routine pushes the base pointer and the registers that it gives back, and pops them at its end.
Whatever its body does in between, as long as it stores neither to these words nor below the stack
pointer that it finds and leaves, the routine comes to its return with the stack pointer, the base
pointer and the pushed registers as they were.
-/

namespace Assembly

open Process Routine

namespace Process

variable {t : Target} {regs : List Text} {area : t.Word → Prop} {p q : Process t} {a x : t.Word}
  {ws : List t.Word} {r name : Text}

/-! ## Words on the stack -/

/-- The words from an address on. -/
def Holds (p : Process t) (a : t.Word) (ws : List t.Word) : Prop :=
  ∀ i x, ws[i]? = some x → p.mem.read (a + BitVec.ofNat _ (i * t.wordSize)) t.wordSize = x

theorem sp_push (p : Process t) (x : t.Word) : (p.push x).sp = p.sp - BitVec.ofNat _ t.wordSize :=
  reg_set_self p t.stackPointer _

theorem reg_push_of_ne (p : Process t) (x : t.Word) (h : physical name ≠ physical t.stackPointer) :
    (p.push x).reg name = p.reg name :=
  if_neg h

theorem sp_drop (p : Process t) : p.drop.sp = p.sp + BitVec.ofNat _ t.wordSize :=
  reg_set_self p t.stackPointer _

theorem touches_push (hregs : physical t.stackPointer ∈ regs)
    (hs : ∀ b, Within (p.sp - BitVec.ofNat _ t.wordSize) t.wordSize b → area b) (x : t.Word) :
    Touches regs area p (p.push x) :=
  ((Touches.refl p).set hregs _).store hs x

namespace Holds

theorem nil (p : Process t) (a : t.Word) : p.Holds a [] := fun _ _ h => nomatch h

theorem push (h : p.Holds p.sp ws) (x : t.Word)
    (hroom : (ws.length + 1) * t.wordSize ≤ 2 ^ (8 * t.wordSize)) :
    (p.push x).Holds (p.push x).sp (x :: ws) := by
  intro i y hy
  have hmem : (p.push x).mem = p.mem.write (p.push x).sp t.wordSize x := by
    rw [sp_push]
    rfl
  rw [hmem]
  cases i with
  | zero =>
    rw [List.getElem?_cons_zero, Option.some.injEq] at hy
    have hfit : t.wordSize ≤ 2 ^ (8 * t.wordSize) := by
      rw [Nat.succ_mul] at hroom
      omega
    rw [Nat.zero_mul, BitVec.add_zero, ← hy]
    exact Memory.read_write _ _ hfit x
  | succ i =>
    rw [List.getElem?_cons_succ] at hy
    have hi : i < ws.length := (List.getElem?_eq_some_iff.mp hy).1
    have hbound : (i + 2) * t.wordSize ≤ (ws.length + 1) * t.wordSize :=
      Nat.mul_le_mul_right _ (by omega)
    have hnext : (i + 1) * t.wordSize = i * t.wordSize + t.wordSize := Nat.succ_mul ..
    have hlast : (i + 2) * t.wordSize = (i + 1) * t.wordSize + t.wordSize := Nat.succ_mul ..
    have haddr : (p.push x).sp + BitVec.ofNat _ ((i + 1) * t.wordSize) =
        p.sp + BitVec.ofNat _ (i * t.wordSize) := by
      rw [sp_push, hnext, BitVec.ofNat_add]
      exact sub_add_add_cancel ..
    rw [Memory.read_write_of_le _ _ (by omega) (by omega), haddr]
    exact h i y hy

theorem touches (h : p.Holds a ws) (ht : Touches regs area p q)
    (hapart : ∀ b, Within a (ws.length * t.wordSize) b → ¬ area b) : q.Holds a ws := by
  intro i x hx
  have hi : i < ws.length := (List.getElem?_eq_some_iff.mp hx).1
  have hbound : (i + 1) * t.wordSize ≤ ws.length * t.wordSize := Nat.mul_le_mul_right _ hi
  rw [Nat.succ_mul] at hbound
  rw [ht.read fun b hb => hapart b (hb.add.mono hbound)]
  exact h i x hx

theorem top (h : p.Holds p.sp (x :: ws)) : p.top = x := by
  have hx := h 0 x rfl
  rwa [Nat.zero_mul, BitVec.add_zero] at hx

theorem tail (h : p.Holds a (x :: ws)) : p.Holds (a + BitVec.ofNat _ t.wordSize) ws := by
  intro i y hy
  have hplace : (i + 1) * t.wordSize = t.wordSize + i * t.wordSize := by
    rw [Nat.succ_mul, Nat.add_comm]
  have hnext := h (i + 1) y hy
  rwa [hplace, BitVec.ofNat_add, ← BitVec.add_assoc] at hnext

end Holds

end Process

variable {t : Target} {env : Text → t.Word} {code rest : List Line} {p : Process t}
  {ws : List t.Word} {rs : List Text}

/-! ## Pushes and pops -/

/-- The registers that can be pushed and popped beside the stack pointer. -/
def Target.Stackable (t : Target) (r : Text) : Prop :=
  t.view? r = some ⟨0, t.wordSize⟩ ∧ physical r ≠ physical t.stackPointer

instance (t : Target) (r : Text) : Decidable (t.Stackable r) := inferInstanceAs (Decidable (_ ∧ _))

/-- Pushes put the words on the stack, the last on top. -/
theorem pushAll_passage (env : Text → t.Word) (code rest : List Line) (p : Process t)
    (ws : List t.Word) (rs : List Text) (hrs : ∀ r ∈ rs, t.Stackable r) (hws : p.Holds p.sp ws)
    (hroom : (rs.length + ws.length) * t.wordSize ≤ 2 ^ (8 * t.wordSize)) :
    ∃ q, Passage env code [physical t.stackPointer] (Below p.sp (rs.length * t.wordSize))
        (pushAll rs ++ rest, p) (rest, q) ∧
      q.sp = p.sp - BitVec.ofNat _ (rs.length * t.wordSize) ∧
      q.Holds q.sp (rs.reverse.map p.reg ++ ws) ∧ q.output = p.output := by
  induction rs generalizing p ws with
  | nil => exact ⟨p, .refl _, by simp, hws, rfl⟩
  | cons r rs ih =>
    obtain ⟨hr, hrs⟩ := List.forall_mem_cons.mp hrs
    have hlen : (r :: rs).length * t.wordSize = rs.length * t.wordSize + t.wordSize :=
      Nat.succ_mul ..
    have hroom' : (rs.length + (p.reg r :: ws).length) * t.wordSize ≤ 2 ^ (8 * t.wordSize) := by
      rw [List.length_cons] at hroom ⊢
      rwa [← Nat.add_assoc, Nat.add_right_comm]
    have hpush : (p.push (p.reg r)).Holds (p.push (p.reg r)).sp (p.reg r :: ws) := by
      refine hws.push _ ((Nat.mul_le_mul_right _ ?_).trans hroom)
      rw [List.length_cons]
      omega
    obtain ⟨q, hq, hsp, hholds, hout⟩ := ih (p.push (p.reg r)) (p.reg r :: ws) hrs hpush hroom'
    have hfirst : Passage env code [physical t.stackPointer]
        (Below p.sp ((r :: rs).length * t.wordSize)) (pushAll (r :: rs) ++ rest, p)
        (pushAll rs ++ rest, p.push (p.reg r)) := by
      refine (Passage.refl _).push hr.1 List.mem_cons_self fun b hb => ?_
      exact (hb.below le_rfl).mono (by omega)
    have hsame : rs.reverse.map (p.push (p.reg r)).reg = rs.reverse.map p.reg := by
      refine List.map_congr_left fun s hs => reg_push_of_ne p _ ?_
      exact (hrs s (List.mem_reverse.mp hs)).2
    refine ⟨q, hfirst.trans (hq.mono (List.Subset.refl _) fun b hb => ?_), ?_, ?_, hout⟩
    · -- The pushes after the first are below the word that it pushed.
      obtain ⟨k, hk, rfl⟩ := hb
      refine ⟨t.wordSize + k, by omega, ?_⟩
      rw [sp_push, Nat.add_assoc, BitVec.ofNat_add t.wordSize, sub_sub]
    · rw [hsp, sp_push, hlen, Nat.add_comm (rs.length * t.wordSize), BitVec.ofNat_add, sub_sub]
    · rw [hsame] at hholds
      simpa using hholds

/-- Pops take back what another process had in the registers, if this is on the stack. -/
theorem pops_passage (env : Text → t.Word) (code rest : List Line) (p o : Process t)
    (ws : List t.Word) (rs : List Text) (hrs : ∀ r ∈ rs, t.Stackable r)
    (hws : p.Holds p.sp (rs.map o.reg ++ ws)) :
    ∃ q, Passage env code (physical t.stackPointer :: rs.map physical) (fun _ => False)
        (rs.map (fun r => Line.op .pop [.reg r]) ++ rest, p) (rest, q) ∧
      q.sp = p.sp + BitVec.ofNat _ (rs.length * t.wordSize) ∧ (∀ r ∈ rs, q.reg r = o.reg r) ∧
      q.mem = p.mem ∧ q.output = p.output := by
  induction rs generalizing p with
  | nil => exact ⟨p, .refl _, by simp, List.forall_mem_nil _, rfl, rfl⟩
  | cons r rs ih =>
    obtain ⟨hr, hrs⟩ := List.forall_mem_cons.mp hrs
    have hsp' : (p.drop.set r p.top).sp = p.sp + BitVec.ofNat _ t.wordSize :=
      (reg_set_of_ne p.drop _ hr.2.symm).trans (sp_drop p)
    have hws' : (p.drop.set r p.top).Holds (p.drop.set r p.top).sp (rs.map o.reg ++ ws) := by
      rw [hsp']
      exact hws.tail
    obtain ⟨q, hq, hsp, hregs, hmem, hout⟩ := ih (p.drop.set r p.top) hrs hws'
    have hfirst : Passage env code (physical t.stackPointer :: (r :: rs).map physical)
        (fun _ => False) ((r :: rs).map (fun r => Line.op .pop [.reg r]) ++ rest, p)
        (rs.map (fun r => Line.op .pop [.reg r]) ++ rest, p.drop.set r p.top) :=
      (Passage.refl _).pop hr.1 List.mem_cons_self (by simp)
    refine ⟨q, hfirst.trans (hq.mono ?_ fun _ hb => hb), ?_, ?_, hmem, hout⟩
    · intro name hname
      rw [List.map_cons]
      rcases List.mem_cons.mp hname with rfl | hname
      · exact List.mem_cons_self
      · exact List.mem_cons_of_mem _ (List.mem_cons_of_mem _ hname)
    · rw [hsp, hsp', List.length_cons, Nat.succ_mul rs.length, Nat.add_comm (rs.length * t.wordSize),
        BitVec.ofNat_add, BitVec.add_assoc]
    · refine List.forall_mem_cons.mpr ⟨?_, hregs⟩
      -- A later pop may go to the same register, and then has the same word.
      by_cases hsame : physical r ∈ rs.map physical
      · obtain ⟨s, hs, hphys⟩ := List.mem_map.mp hsame
        have hq' := hregs s hs
        rwa [reg, reg, Cpu.reg, Cpu.reg, hphys] at hq'
      · have hkept : q.reg r = (p.drop.set r p.top).reg r := by
          refine hq.touches.reg fun hmem => ?_
          rcases List.mem_cons.mp hmem with heq | hmem
          · exact hr.2 heq
          · exact hsame hmem
        rw [hkept, reg_set_self]
        exact hws.top

/-! ## Entry and exit -/

theorem enter_passage (env : Text → t.Word) (code rest : List Line) (p : Process t) (name : Text) :
    ∃ q, Passage env code [physical t.stackPointer, physical t.basePointer] (Below p.sp t.wordSize)
        (enter t name ++ rest, p) (rest, q) ∧
      q.sp = p.sp - BitVec.ofNat _ t.wordSize ∧
      q.reg t.basePointer = p.sp - BitVec.ofNat _ t.wordSize ∧
      q.Holds q.sp [p.reg t.basePointer] ∧ q.output = p.output := by
  have hroom : (([] : List t.Word).length + 1) * t.wordSize ≤ 2 ^ (8 * t.wordSize) := by
    cases t <;> decide
  have hlabel : Passage env code [physical t.stackPointer, physical t.basePointer]
      (Below p.sp t.wordSize) (enter t name ++ rest, p) ((enter t name).tail ++ rest, p) :=
    (Passage.refl _).label
  have hpush := hlabel.push t.view?_basePointer List.mem_cons_self fun b hb => hb.below le_rfl
  have hmov := hpush.mov t.view?_basePointer (value?_full t.view?_stackPointer) (by simp)
  have hne : physical t.stackPointer ≠ physical t.basePointer := t.physical_basePointer_ne.symm
  refine ⟨_, hmov, ?_, ?_, ?_, rfl⟩
  · rw [sp_eq, reg_set_of_ne _ _ hne]
    exact sp_push p _
  · rw [reg_set_self]
    exact sp_push p _
  · rw [sp_eq, reg_set_of_ne _ _ hne]
    exact (Holds.nil p _).push _ hroom

/-- The exit finds the base pointer of the caller where the base pointer points. -/
theorem leave_passage (env : Text → t.Word) (code rest : List Line) (p : Process t) {x : t.Word}
    (hx : p.Holds (p.reg t.basePointer) [x]) :
    ∃ q, Passage env code [physical t.stackPointer, physical t.basePointer] (fun _ => False)
        (leave t ++ rest, p) (Line.op .ret [] :: rest, q) ∧
      q.sp = p.reg t.basePointer + BitVec.ofNat _ t.wordSize ∧ q.reg t.basePointer = x ∧
      q.output = p.output := by
  have hmov : Passage env code [physical t.stackPointer, physical t.basePointer] (fun _ => False)
      (leave t ++ rest, p) (_, p.set t.stackPointer (p.reg t.basePointer)) :=
    (Passage.refl (leave t ++ rest, p)).mov t.view?_stackPointer (value?_full t.view?_basePointer)
      (by simp)
  have hpop := hmov.pop t.view?_basePointer (by simp) (by simp)
  have hword : (p.set t.stackPointer (p.reg t.basePointer)).Holds
      (p.set t.stackPointer (p.reg t.basePointer)).sp [x] := by
    rw [sp_eq, reg_set_self]
    exact hx
  refine ⟨_, hpop, ?_, ?_, rfl⟩
  · rw [sp_eq, reg_set_of_ne _ _ t.physical_basePointer_ne.symm]
    exact (sp_drop _).trans (by rw [sp_eq, reg_set_self])
  · rw [reg_set_self, hword.top]

/-! ## The frame around a body -/

/-- The shape of a routine: what its code is made of, and what it keeps on the stack. -/
structure Framed (t : Target) (env : Text → t.Word) (code : List Line) (saved : List Text)
    (room : Nat) (body : List Line) : Prop where
  code_eq : ∃ name reserve, code =
      enter t name ++ (reserve ++ (pushAll saved ++ (body ++ (popAll saved ++ leave t)))) ∧
    ∀ rest p, ∃ q, Passage env code [physical t.stackPointer] (fun _ => False)
      (reserve ++ rest, p) (rest, q) ∧ q.sp = p.sp - BitVec.ofNat _ room ∧ q.output = p.output
  stackable : ∀ r ∈ saved, t.Stackable r ∧ physical r ≠ physical t.basePointer
  fits : t.wordSize + room + saved.length * t.wordSize ≤ 2 ^ (8 * t.wordSize)

namespace Framed

variable {saved : List Text} {room : Nat} {body : List Line} {area : t.Word → Prop}
  {regs scratch : List Text} {P : Process t → Prop}

/-- How far the frame goes down. -/
def depth (t : Target) (saved : List Text) (room : Nat) : Nat :=
  t.wordSize + room + saved.length * t.wordSize

/-- The process that the body of a routine finds, when the routine was called with `p`. -/
structure Entered (p q : Process t) (saved : List Text) (room : Nat) : Prop where
  touches : Touches [physical t.stackPointer, physical t.basePointer]
    (Below p.sp (depth t saved room)) p q
  sp : q.sp = p.sp - BitVec.ofNat _ (depth t saved room)
  base : q.reg t.basePointer = p.sp - BitVec.ofNat _ t.wordSize
  kept : q.Holds q.sp (saved.reverse.map p.reg)
  keptBase : q.Holds (p.sp - BitVec.ofNat _ t.wordSize) [p.reg t.basePointer]
  output : q.output = p.output

theorem entered (h : Framed t env code saved room body) (p : Process t) :
    ∃ q, Reaches env code (code, p) (body ++ (popAll saved ++ leave t), q) ∧
      Entered p q saved room := by
  obtain ⟨name, reserve, hcode, hreserve⟩ := h.code_eq
  have hfits := h.fits
  have hroom : (saved.length + ([] : List t.Word).length) * t.wordSize ≤ 2 ^ (8 * t.wordSize) := by
    rw [List.length_nil, Nat.add_zero]
    omega
  obtain ⟨p₁, h₁, hsp₁, hbp₁, hold₁, hout₁⟩ := enter_passage env code
    (reserve ++ (pushAll saved ++ (body ++ (popAll saved ++ leave t)))) p name
  obtain ⟨p₂, h₂, hsp₂, hout₂⟩ := hreserve (pushAll saved ++ (body ++ (popAll saved ++ leave t))) p₁
  obtain ⟨p₃, h₃, hsp₃, hold₃, hout₃⟩ := pushAll_passage env code (body ++ (popAll saved ++ leave t))
    p₂ [] saved (fun r hr => (h.stackable r hr).1) (Holds.nil p₂ _) hroom
  have hne := t.physical_basePointer_ne
  have hsp₂' : p₂.sp = p.sp - BitVec.ofNat _ (t.wordSize + room) := by
    rw [hsp₂, hsp₁, BitVec.ofNat_add, sub_sub]
  have hsub : ∀ b, Below p₂.sp (saved.length * t.wordSize) b → Below p.sp (depth t saved room) b := by
    rintro b ⟨k, hk, rfl⟩
    refine ⟨t.wordSize + room + k, by rw [depth]; omega, ?_⟩
    rw [hsp₂', Nat.add_assoc, BitVec.ofNat_add (t.wordSize + room), sub_sub]
  have hregs : ∀ name, name ∉ [physical t.stackPointer, physical t.basePointer] →
      p₂.cpu.regs name = p.cpu.regs name := by
    intro name hname
    rw [h₂.touches.regs name fun hin => hname (List.mem_append_left [_] hin),
      h₁.touches.regs name hname]
  refine ⟨p₃, ?_, ?_⟩
  · nth_rewrite 2 [hcode]
    exact h₁.reaches.trans (h₂.reaches.trans h₃.reaches)
  refine ⟨?_, ?_, ?_, ?_, ?_, hout₃.trans (hout₂.trans hout₁)⟩
  · refine (h₁.touches.mono (List.Subset.refl _) fun b hb => hb.mono ?_).trans
      ((h₂.touches.mono ?_ fun b hb => hb.elim).trans (h₃.touches.mono ?_ hsub))
    · rw [depth]
      omega
    · simp
    · simp
  · rw [hsp₃, hsp₂', sub_sub, ← BitVec.ofNat_add]
    rfl
  · rw [h₃.touches.reg (by simpa using hne), h₂.touches.reg (by simpa using hne), hbp₁]
  · have hsame : saved.reverse.map p₂.reg = saved.reverse.map p.reg := by
      refine List.map_congr_left fun r hr => hregs _ ?_
      obtain ⟨⟨-, hsp⟩, hbp⟩ := h.stackable r (List.mem_reverse.mp hr)
      simp [hsp, hbp]
    rw [hsame, List.append_nil] at hold₃
    exact hold₃
  · rw [hsp₁] at hold₁
    refine (hold₁.touches h₂.touches fun _ _ hb => hb).touches h₃.touches fun b hb => ?_
    -- The word of the base pointer is above what was reserved, and the pushes are below.
    have habove : Within p₂.sp (room + t.wordSize) b := by
      refine Within.add ?_
      rw [hsp₂', BitVec.ofNat_add, ← sub_sub, sub_add_cancel]
      simpa using hb
    exact habove.not_below (by omega)

/-- A routine whose body leaves the frame alone returns with what it saved. -/
theorem returns (h : Framed t env code saved room body) (p : Process t)
    (hapart : ∀ b, area b →
      ¬ Within (p.sp - BitVec.ofNat _ (depth t saved room)) (saved.length * t.wordSize) b ∧
      ¬ Within (p.sp - BitVec.ofNat _ t.wordSize) t.wordSize b)
    (hscratch : ∀ name ∈ regs, name ∈ scratch ∨ name = physical t.stackPointer ∨
      name ∈ saved.map physical)
    (hbase : physical t.basePointer ∉ regs)
    (hbody : ∀ p₁, Entered p p₁ saved room → ∃ q₁, Passage env code regs area
      (body ++ (popAll saved ++ leave t), p₁) (popAll saved ++ leave t, q₁) ∧
      q₁.sp = p₁.sp ∧ P q₁) :
    ∃ q₁ q, P q₁ ∧ q.output = q₁.output ∧ Returns env code p q ∧
      Touches scratch (fun b => area b ∨ Below p.sp (depth t saved room) b) p q ∧
      ∀ name, name ∉ saved.map physical → name ≠ physical t.stackPointer →
        name ≠ physical t.basePointer → q.cpu.regs name = q₁.cpu.regs name := by
  obtain ⟨p₁, hreach₁, hent⟩ := h.entered p
  obtain ⟨q₁, hq₁, hsp₁, hP⟩ := hbody p₁ hent
  have hne := t.physical_basePointer_ne
  have hold₁ : q₁.Holds q₁.sp (saved.reverse.map p.reg) := by
    rw [hsp₁]
    refine hent.kept.touches hq₁.touches fun b hb harea => (hapart b harea).1 ?_
    rw [← hent.sp]
    simpa using hb
  have hbp₁ : q₁.reg t.basePointer = p.sp - BitVec.ofNat _ t.wordSize :=
    (hq₁.touches.reg hbase).trans hent.base
  have hstack : ∀ r ∈ saved.reverse, t.Stackable r :=
    fun r hr => (h.stackable r (List.mem_reverse.mp hr)).1
  obtain ⟨q₂, hq₂, hsp₂, hregs₂, hmem₂, hout₂⟩ := pops_passage env code (leave t) q₁ p [] saved.reverse
    hstack (by rwa [List.append_nil])
  have hbp₂ : q₂.reg t.basePointer = p.sp - BitVec.ofNat _ t.wordSize := by
    refine (hq₂.touches.reg fun hin => ?_).trans hbp₁
    rcases List.mem_cons.mp hin with heq | hin
    · exact hne heq
    · obtain ⟨r, hr, heq⟩ := List.mem_map.mp hin
      exact (h.stackable r (List.mem_reverse.mp hr)).2 heq
  have hold₂ : q₂.Holds (q₂.reg t.basePointer) [p.reg t.basePointer] := by
    rw [hbp₂]
    refine (hent.keptBase.touches hq₁.touches fun b hb harea => (hapart b harea).2 ?_).touches
      hq₂.touches fun _ _ hb => hb
    simpa using hb
  obtain ⟨q, hq, hsp, hbp, hout⟩ := leave_passage env code [] q₂ hold₂
  rw [List.append_nil] at hq
  have htotal : Touches (regs ++ (physical t.stackPointer :: physical t.basePointer ::
      saved.reverse.map physical)) (fun b => area b ∨ Below p.sp (depth t saved room) b) p q := by
    refine (hent.touches.mono ?_ fun b hb => .inr hb).trans
      ((hq₁.touches.mono ?_ fun b hb => .inl hb).trans
        ((hq₂.touches.mono ?_ fun b hb => hb.elim).trans
          (hq.touches.mono ?_ fun b hb => hb.elim)))
    · intro name hname
      simp only [List.mem_cons, List.not_mem_nil, or_false] at hname
      rcases hname with rfl | rfl <;> simp
    · exact List.subset_append_left _ _
    · intro name hname
      rcases List.mem_cons.mp hname with rfl | hname
      · simp
      · exact List.mem_append_right _ (List.mem_cons_of_mem _ (List.mem_cons_of_mem _ hname))
    · intro name hname
      simp only [List.mem_cons, List.not_mem_nil, or_false] at hname
      rcases hname with rfl | rfl <;> simp
  refine ⟨q₁, q, hP, hout.trans hout₂, ⟨[], ?_⟩,
    ⟨fun name hname => ?_, htotal.mem, htotal.stores, htotal.answers⟩, ?_⟩
  · exact hreach₁.trans (hq₁.reaches.trans (hq₂.reaches.trans hq.reaches))
  · by_cases hspn : name = physical t.stackPointer
    · have hback : q.sp = p.sp := by rw [hsp, hbp₂, sub_add_cancel]
      rw [hspn]
      exact hback
    by_cases hbpn : name = physical t.basePointer
    · rw [hbpn]
      exact hbp
    have hlast : q.cpu.regs name = q₂.cpu.regs name := hq.touches.regs name (by simp [hspn, hbpn])
    by_cases hsaved : name ∈ saved.map physical
    · obtain ⟨r, hr, rfl⟩ := List.mem_map.mp hsaved
      exact hlast.trans (hregs₂ r (List.mem_reverse.mpr hr))
    · have hpops : q₂.cpu.regs name = q₁.cpu.regs name :=
        hq₂.touches.regs name (by simpa [hspn] using hsaved)
      have hmid : q₁.cpu.regs name = p₁.cpu.regs name := by
        refine hq₁.touches.regs name fun hin => ?_
        rcases hscratch name hin with h₁ | h₁ | h₁
        · exact hname h₁
        · exact hspn h₁
        · exact hsaved h₁
      rw [hlast, hpops, hmid, hent.touches.regs name (by simp [hspn, hbpn])]
  · intro name hsaved hspn hbpn
    rw [hq.touches.regs name (by simp [hspn, hbpn]),
      hq₂.touches.regs name (by simpa [hspn] using hsaved)]

end Framed

end Assembly
