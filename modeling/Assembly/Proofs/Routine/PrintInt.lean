import Assembly.Engine.Print
import Assembly.Proofs.Routine.Digits

/-!
# What the routine for integers prints

`print_int` converts the word in its argument, and writes it and a newline.
-/

namespace Assembly.Routine.PrintInt

open Process

variable {t : Target}

/-! ## The code -/

/-- The lines between the pushes and the pops. -/
def body (t : Target) : List Line :=
  let r := regs t
  Line.op .mov [.reg r.number, .mem (.above t.basePointer (2 * t.wordSize))] ::
    (openBuffer r "print_buffer" ++ (takeSign r ++
      (digitLoop r ".convert" ++ (signDigits r ".print" ++ write t))))

/-- The code behind the body. -/
def tail (t : Target) : List Line := popAll (saved t) ++ leave t

theorem framed (env : Text → t.Word) : Framed t env (routine t) (saved t) 0 (body t) := by
  refine ⟨⟨"print_int", [], ?_, fun rest p => ⟨p, .refl _, (sub_zero _).symm, rfl⟩⟩, ?_, ?_⟩
  · simp only [routine, body, List.append_assoc, List.nil_append, List.cons_append]
  · cases t <;> decide
  · cases t <;> decide

theorem seek_positive (t : Target) : seek (routine t) ".positive" =
    some (Line.op .xor [.reg (regs t).negative, .reg (regs t).negative] ::
      (digitLoop (regs t) ".convert" ++ (signDigits (regs t) ".print" ++ (write t ++ tail t)))) := by
  cases t <;> rfl

theorem seek_convert (t : Target) : seek (routine t) ".convert" =
    some ((digitLoop (regs t) ".convert").tail ++
      (signDigits (regs t) ".print" ++ (write t ++ tail t))) := by
  cases t <;> rfl

theorem seek_print (t : Target) : seek (routine t) ".print" =
    some (Line.op .inc [.reg (regs t).place] :: (write t ++ tail t)) := by
  cases t <;> rfl

/-! ## The sign of the number -/

theorem toNat_neg_of_msb {w : Nat} {x : BitVec w} (h : x.msb = true) :
    (-x).toNat = x.toInt.natAbs := by
  have hint : x.toInt = x.toNat - (2 ^ w : Nat) := by rw [BitVec.toInt_eq_msb_cond, if_pos h]
  have hlt := x.isLt
  have hpos : 0 < x.toNat := by
    rw [BitVec.msb_eq_decide, decide_eq_true_iff] at h
    exact (Nat.two_pow_pos _).trans_le h
  rw [BitVec.toNat_neg, Nat.mod_eq_of_lt (by omega), hint]
  omega

/-- The number without its sign goes to the loop, also if it is the least one. -/
theorem takeSign_passage (env : Text → t.Word) (code rest : List Line) (q : Process t)
    {r : DigitRegs} (hr : r.Fits t)
    (hpositive : seek code ".positive" =
      some (Line.op .xor [.reg r.negative, .reg r.negative] :: (digitLoop r ".convert" ++ rest)))
    (hconvert : seek code ".convert" = some ((digitLoop r ".convert").tail ++ rest)) :
    ∃ q', Passage env code [physical "rax", physical r.negative] (fun _ => False)
        (takeSign r ++ (digitLoop r ".convert" ++ rest), q)
        ((digitLoop r ".convert").tail ++ rest, q') ∧
      (q'.reg "rax").toNat = (q.reg "rax").toInt.natAbs ∧
      (q'.reg r.negative ≠ 0 ↔ (q.reg "rax").toInt < 0) ∧ q'.output = q.output := by
  have hnumber : ∀ p : Process t, p.reg r.number = p.reg "rax" :=
    fun p => congrArg p.cpu.regs hr.number
  have hview : t.view? r.negative = some ⟨0, t.wordSize⟩ := hr.full _ (by simp)
  have hne : physical "rax" ≠ physical r.negative := by
    have hnot := hr.negative
    simp only [DigitRegs.changed, List.mem_cons, not_or] at hnot
    exact Ne.symm hnot.2.1
  have hstart : Passage env code [physical "rax", physical r.negative] (fun _ => False)
    (takeSign r ++ (digitLoop r ".convert" ++ rest), q)
    (takeSign r ++ (digitLoop r ".convert" ++ rest), q) := .refl _
  have htest := hstart.testSelf (hr.full _ (by simp))
  have hjump := htest.jumpIf (!(q.reg r.number).msb) rfl hpositive
  rw [hnumber] at hjump
  cases hmsb : (q.reg "rax").msb with
  | false =>
    rw [hmsb, Bool.not_false, if_pos rfl] at hjump
    obtain ⟨f, hxor⟩ := hjump.xorSelf hview (by simp)
    have hint : (q.reg "rax").toInt = (q.reg "rax").toNat :=
      BitVec.toInt_eq_toNat_of_msb hmsb
    refine ⟨_, hxor.label, ?_, ?_, rfl⟩
    · rw [reg_withFlags, reg_set_of_ne _ _ hne, hint]
      rfl
    · rw [reg_withFlags, reg_set_self, hint]
      simp
  | true =>
    rw [hmsb, Bool.not_true, if_neg Bool.false_ne_true] at hjump
    obtain ⟨f, hneg⟩ := hjump.neg (hr.full _ (by simp)) (by simp [hr.number])
    have hmov := hneg.mov hview rfl (by simp)
    have hone : (BitVec.ofInt (8 * t.wordSize) 1) ≠ 0 := by cases t <;> decide
    refine ⟨_, hmov.jump hconvert, ?_, ?_, rfl⟩
    · rw [reg_set_of_ne _ _ hne, reg_withFlags, reg_set, if_pos hr.number.symm]
      exact (congrArg (fun x => (-x).toNat) (hnumber q)).trans (toNat_neg_of_msb hmsb)
    · rw [reg_set_self]
      rw [BitVec.msb_eq_toInt, decide_eq_true_iff] at hmsb
      exact iff_of_true hone hmsb

/-! ## The output -/

/-- The text stands in front of the last byte of the buffer, where the place points. -/
structure Ready (env : Text → t.Word) (text : Text) (q : Process t) : Prop where
  short : text.length ≤ 21
  place : q.reg (regs t).place =
    env "print_buffer" + BitVec.ofNat _ 31 - BitVec.ofNat _ text.length
  text : q.mem.text (q.reg (regs t).place) text.length = text
  newline : q.mem (env "newline") = 10

/-- The registers of the pool that writing overwrites and that the routine does not give back. -/
def lost (t : Target) : List Text := t.writeClobbers.filter (· ∉ saved t)

theorem lost_apart (t : Target) : ∀ r ∈ lost t, physical r ∉ (saved t).map physical ∧
    physical r ≠ physical t.stackPointer ∧ physical r ≠ physical t.basePointer := by
  cases t <;> decide

/-- The text and a newline are written.  What is left in registers that are lost is from the second
system call. -/
structure Written (env : Text → t.Word) (text : Text) (q q' : Process t) : Prop where
  output : q'.output = q.output ++ text ++ [10]
  lost : ∀ r ∈ lost t, q'.reg r = 1 ∨ q'.reg r = env "newline" ∨
    ∃ k, q'.reg r = (q.answers k).setWidth _

namespace Ready

variable {env : Text → t.Word} {text : Text} {q : Process t}

theorem length (h : Ready env text q) :
    (env "print_buffer" + BitVec.ofNat _ 31 - q.reg (regs t).place).toNat = text.length := by
  have hbuffer := t.buffer_le
  have hshort := h.short
  rw [h.place, sub_sub_cancel, BitVec.toNat_ofNat, Nat.mod_eq_of_lt (by omega)]

/-- The output after a call that writes from the place to the end of the buffer, and one that writes
the newline. -/
theorem output {q₁ q₂ : Process t} (h : Ready env text q)
    (hfirst : q₁.output = q.output ++ q.mem.text (q.reg (regs t).place)
      (env "print_buffer" + BitVec.ofNat _ 31 - q.reg (regs t).place).toNat)
    (hmem : q₁.mem = q.mem) (hsecond : q₂.output = q₁.output ++ q₁.mem.text (env "newline") 1) :
    q₂.output = q.output ++ text ++ [10] := by
  rw [hsecond, hfirst, h.length, h.text, hmem, Memory.text_one, h.newline]
  rfl

end Ready

/-- The registers that writing changes. -/
def writeRegs : Target → List Text
  | .bits16 | .bits32 => ["rax", "rbx", "rcx", "rdx"]
  | .bits64 => ["rax", "rcx", "rdx", "rsi", "rdi", "r11"]

theorem write_bits16 (env : Text → Target.bits16.Word) (code rest : List Line)
    (q : Process .bits16) {text : Text} (h : Ready env text q) :
    ∃ q', Passage env code (writeRegs .bits16) (fun _ => False) (write .bits16 ++ rest, q)
      (rest, q') ∧ Written env text q q' := by
  have hah : Target.bits16.view? "ah" = some ⟨1, 1⟩ := by decide
  have hstart : Passage env code (writeRegs .bits16) (fun _ => False)
    (write .bits16 ++ rest, q) (write .bits16 ++ rest, q) := .refl _
  have h₁ := hstart.movPart (x := 0x40) hah rfl (by decide)
  have h₂ := h₁.mov (d := "bx") (x := 1) (by decide) rfl (by decide)
  have h₃ := h₂.lea (d := "cx") (by decide) rfl (by decide)
  obtain ⟨f, h₄⟩ := h₃.sub (d := "cx") (by decide) (value?_full (by decide)) (by decide)
  have h₅ := h₄.mov (d := "dx") (by decide) (value?_full (by decide)) (by decide)
  obtain ⟨q₁, h₆, hout₁, hmem₁, -, -⟩ := h₅.trap
    (extract_replace ⟨1, 1⟩ (by decide) (by decide) (q.reg "ah") 0x40) rfl (by decide)
  have h₇ := h₆.movPart (x := 0x40) hah rfl (by decide)
  have h₈ := h₇.mov (d := "bx") (x := 1) (by decide) rfl (by decide)
  have h₉ := h₈.mov (d := "cx") (x := 1) (by decide) rfl (by decide)
  have h₁₀ := h₉.mov (d := "dx") (x := env "newline") (by decide) rfl (by decide)
  obtain ⟨q₂, h₁₁, hout₂, -, hregs₂, -⟩ := h₁₀.trap
    (extract_replace ⟨1, 1⟩ (by decide) (by decide) (q₁.reg "ah") 0x40) rfl (by decide)
  refine ⟨q₂, h₁₁, h.output hout₁ hmem₁ hout₂, ?_⟩
  have hcx : q₂.reg "cx" = 1 := hregs₂ _ (by decide)
  have hdx : q₂.reg "dx" = env "newline" := hregs₂ _ (by decide)
  have hlost : lost .bits16 = (["cx", "dx"] : List Text) := by decide
  rw [hlost]
  simp [hcx, hdx]

theorem write_bits32 (env : Text → Target.bits32.Word) (code rest : List Line)
    (q : Process .bits32) {text : Text} (h : Ready env text q) :
    ∃ q', Passage env code (writeRegs .bits32) (fun _ => False) (write .bits32 ++ rest, q)
      (rest, q') ∧ Written env text q q' := by
  have hstart : Passage env code (writeRegs .bits32) (fun _ => False)
    (write .bits32 ++ rest, q) (write .bits32 ++ rest, q) := .refl _
  have h₁ := hstart.mov (d := "eax") (x := 4) (by decide) rfl (by decide)
  have h₂ := h₁.mov (d := "ebx") (x := 1) (by decide) rfl (by decide)
  have h₃ := h₂.mov (d := "ecx") (by decide) (value?_full (by decide)) (by decide)
  have h₄ := h₃.lea (d := "edx") (by decide) rfl (by decide)
  obtain ⟨f, h₅⟩ := h₄.sub (d := "edx") (by decide) (value?_full (by decide)) (by decide)
  obtain ⟨q₁, h₆, hout₁, hmem₁, -, -⟩ := h₅.trap rfl rfl (by decide)
  have h₇ := h₆.mov (d := "eax") (x := 4) (by decide) rfl (by decide)
  have h₈ := h₇.mov (d := "ebx") (x := 1) (by decide) rfl (by decide)
  have h₉ := h₈.mov (d := "ecx") (x := env "newline") (by decide) rfl (by decide)
  have h₁₀ := h₉.mov (d := "edx") (x := 1) (by decide) rfl (by decide)
  obtain ⟨q₂, h₁₁, hout₂, -, hregs₂, -⟩ := h₁₀.trap rfl rfl (by decide)
  refine ⟨q₂, h₁₁, h.output hout₁ hmem₁ hout₂, ?_⟩
  have hecx : q₂.reg "ecx" = env "newline" := hregs₂ _ (by decide)
  have hedx : q₂.reg "edx" = 1 := hregs₂ _ (by decide)
  have hlost : lost .bits32 = (["ecx", "edx"] : List Text) := by decide
  rw [hlost]
  simp [hecx, hedx]

theorem write_bits64 (env : Text → Target.bits64.Word) (code rest : List Line)
    (q : Process .bits64) {text : Text} (h : Ready env text q) :
    ∃ q', Passage env code (writeRegs .bits64) (fun _ => False) (write .bits64 ++ rest, q)
      (rest, q') ∧ Written env text q q' := by
  have hstart : Passage env code (writeRegs .bits64) (fun _ => False)
    (write .bits64 ++ rest, q) (write .bits64 ++ rest, q) := .refl _
  have h₁ := hstart.mov (d := "rax") (x := 1) (by decide) rfl (by decide)
  have h₂ := h₁.mov (d := "rdi") (x := 1) (by decide) rfl (by decide)
  have h₃ := h₂.lea (d := "rdx") (by decide) rfl (by decide)
  obtain ⟨f, h₄⟩ := h₃.sub (d := "rdx") (by decide) (value?_full (by decide)) (by decide)
  obtain ⟨q₁, h₅, hout₁, hmem₁, -, -⟩ := h₄.trap rfl rfl (by decide)
  have h₆ := h₅.mov (d := "rax") (x := 1) (by decide) rfl (by decide)
  have h₇ := h₆.mov (d := "rdi") (x := 1) (by decide) rfl (by decide)
  have h₈ := h₇.lea (d := "rsi") (a := env "newline") (by decide) rfl (by decide)
  have h₉ := h₈.mov (d := "rdx") (x := 1) (by decide) rfl (by decide)
  obtain ⟨q₂, h₁₀, hout₂, -, hregs₂, hanswers⟩ := h₉.trap rfl rfl (by decide)
  refine ⟨q₂, h₁₀, h.output hout₁ hmem₁ hout₂, ?_⟩
  have hrdx : q₂.reg "rdx" = 1 := hregs₂ _ (by decide)
  have hanswer : ∀ name, physical name ∈ Target.bits64.trapClobbers.map physical →
      ∃ k, q₂.reg name = (q.answers k).setWidth _ := by
    intro name hname
    obtain ⟨k, hk⟩ := hanswers name hname
    obtain ⟨j, hj⟩ := h₉.touches.answers k
    exact ⟨j, hk.trans (congrArg _ hj)⟩
  have hlost : lost .bits64 = (["rcx", "rdx", "r11"] : List Text) := by decide
  rw [hlost]
  simp [hrdx, hanswer "rcx" (by decide), hanswer "r11" (by decide)]

theorem write_passage (env : Text → t.Word) (code rest : List Line) (q : Process t) {text : Text}
    (h : Ready env text q) :
    ∃ q', Passage env code (writeRegs t) (fun _ => False) (write t ++ rest, q) (rest, q') ∧
      Written env text q q' := by
  cases t with
  | bits16 => exact write_bits16 env code rest q h
  | bits32 => exact write_bits32 env code rest q h
  | bits64 => exact write_bits64 env code rest q h

/-! ## The routine -/

/-- The newline is a byte in memory, and it, the buffer and the four words that the routine pushes
are apart. -/
structure Layout (env : Text → t.Word) (p : Process t) : Prop where
  buffer : ∀ b, Within (env "print_buffer") 32 b → ¬ Below p.sp (4 * t.wordSize) b
  newline : p.mem (env "newline") = 10
  newline_stack : ¬ Below p.sp (4 * t.wordSize) (env "newline")
  newline_buffer : ¬ Within (env "print_buffer") 32 (env "newline")

/-- The registers that are not as before when the routine returns. -/
def scratch : Target → List Text
  | .bits16 | .bits32 => ["rax", "rcx", "rdx"]
  | .bits64 => ["rax", "rcx", "rdx", "rsi", "rdi", "r11"]

theorem depth_eq (t : Target) : Framed.depth t (saved t) 0 = 4 * t.wordSize := by
  cases t <;> rfl

variable {env : Text → t.Word} {p p₁ : Process t}

theorem argument (hent : Framed.Entered p p₁ (saved t) 0) :
    p₁.value? env t.wordSize (.mem (.above t.basePointer (2 * t.wordSize))) =
      some (p.cpu.slot 1) := by
  have hplace : p₁.cpu.reg t.basePointer + BitVec.ofNat _ (2 * t.wordSize) =
      p.sp + BitVec.ofNat _ (1 * t.wordSize) := by
    have hbase : p₁.cpu.reg t.basePointer = p.sp - BitVec.ofNat _ t.wordSize := hent.base
    rw [hbase, Nat.two_mul, Nat.one_mul, BitVec.ofNat_add]
    exact sub_add_add_cancel ..
  have haddr : p₁.cpu.address? env (.above t.basePointer (2 * t.wordSize)) =
      some (p.sp + BitVec.ofNat _ (1 * t.wordSize)) := by
    rw [Cpu.address?, Cpu.base?_full env p₁.cpu t.view?_basePointer, Option.map_some, hplace]
  have hvalue : p₁.cpu.value? env t.wordSize (.mem (.above t.basePointer (2 * t.wordSize))) =
      some (p₁.mem.read (p.sp + BitVec.ofNat _ (1 * t.wordSize)) t.wordSize) := by
    rw [Cpu.value?, haddr]
    rfl
  refine hvalue.trans (congrArg some (hent.touches.read fun b hb => hb.add.not_below ?_))
  rw [depth_eq]
  cases t <;> decide

theorem regs_subset (t : Target) :
    [physical (regs t).place, physical (regs t).divisor] ⊆ scratch t ++ (saved t).map physical ∧
      [physical "rax", physical (regs t).negative] ⊆ scratch t ++ (saved t).map physical ∧
      (regs t).changed ⊆ scratch t ++ (saved t).map physical ∧
      writeRegs t ⊆ scratch t ++ (saved t).map physical := by
  cases t <;> decide

theorem pointers_not_mem (t : Target) :
    physical t.stackPointer ∉ scratch t ++ (saved t).map physical ∧
      physical t.basePointer ∉ scratch t ++ (saved t).map physical := by
  cases t <;> decide

theorem body_append (t : Target) : body t ++ tail t =
    Line.op .mov [.reg (regs t).number, .mem (.above t.basePointer (2 * t.wordSize))] ::
      (openBuffer (regs t) "print_buffer" ++ (takeSign (regs t) ++
        (digitLoop (regs t) ".convert" ++ (signDigits (regs t) ".print" ++
          (write t ++ tail t))))) := by
  simp only [body, List.append_assoc, List.cons_append]

/-- The argument comes to stand in the buffer. -/
theorem convert_passage (h : Layout env p) (hent : Framed.Entered p p₁ (saved t) 0) :
    ∃ q, Passage env (routine t) (scratch t ++ (saved t).map physical)
        (Within (env "print_buffer") 32) (body t ++ tail t, p₁) (write t ++ tail t, q) ∧
      Ready env (Text.ofInt (p.cpu.slot 1).toInt) q ∧ q.output = p₁.output := by
  have hr := regs_fits t
  obtain ⟨hbuffer, hsign, hdigits, -⟩ := regs_subset t
  have hsymbol : part? "print_buffer" = none := by decide
  have hstart : Passage env (routine t) (scratch t ++ (saved t).map physical)
    (Within (env "print_buffer") 32) (body t ++ tail t, p₁) (body t ++ tail t, p₁) := .refl _
  nth_rewrite 2 [body_append] at hstart
  have hmov := hstart.mov (hr.full (regs t).number (by simp)) (argument hent)
    (hdigits (by simp [DigitRegs.changed, hr.number]))
  have hrax₁ : (p₁.set (regs t).number (p.cpu.slot 1)).reg "rax" = p.cpu.slot 1 :=
    if_pos hr.number.symm
  obtain ⟨q₂, h₂, hplace₂, hten₂, hout₂⟩ := openBuffer_passage env (routine t) _
    (p₁.set (regs t).number (p.cpu.slot 1)) hr hsymbol
  have hrax₂ : q₂.reg "rax" = p.cpu.slot 1 := (h₂.touches.reg hr.apart.1).trans hrax₁
  obtain ⟨q₃, h₃, habs₃, hneg₃, hout₃⟩ := takeSign_passage env (routine t) _ q₂ hr (seek_positive t)
    (seek_convert t)
  rw [hrax₂] at habs₃ hneg₃
  have hplace₃ : q₃.reg (regs t).place = q₂.reg (regs t).place :=
    h₃.touches.reg hr.apart.2.1
  have hten₃ : q₃.reg (regs t).divisor = 10 := (h₃.touches.reg hr.apart.2.2).trans hten₂
  have htext : Text.ofInt (p.cpu.slot 1).toInt =
      Text.minus (q₃.reg (regs t).negative ≠ 0) ++ Text.ofNat (q₃.reg "rax").toNat := by
    rw [Text.ofInt_eq, habs₃, decide_eq_decide.mpr hneg₃]
  have hshort : (Text.ofInt (p.cpu.slot 1).toInt).length ≤ 21 := by
    rw [htext]
    exact length_minus_append _ _
  obtain ⟨q₄, h₄, hplace₄, htext₄, hout₄⟩ := decimal_passage env (routine t) _ q₃ hr hten₃
    (seek_convert t) (seek_print t) htext
  rw [hplace₃, hplace₂] at h₄ hplace₄
  have hall : Passage env (routine t) (scratch t ++ (saved t).map physical)
      (Within (env "print_buffer") 32) (body t ++ tail t, p₁) (write t ++ tail t, q₄) := by
    refine ((hmov.trans (h₂.mono hbuffer fun _ hb => hb)).trans
      (h₃.mono hsign fun _ hb => hb.elim)).trans (h₄.mono hdigits fun b hb => ?_)
    exact (Within.of_below hb (by omega)).mono (by decide)
  refine ⟨q₄, hall, ⟨hshort, hplace₄, htext₄, ?_⟩, hout₄.trans (hout₃.trans hout₂)⟩
  have hstack : ¬ Below p.sp (Framed.depth t (saved t) 0) (env "newline") := by
    rw [depth_eq]
    exact h.newline_stack
  rw [hall.touches.mem _ h.newline_buffer, hent.touches.mem _ hstack, h.newline]

theorem body_passage (h : Layout env p) (hent : Framed.Entered p p₁ (saved t) 0) :
    ∃ q, Passage env (routine t) (scratch t ++ (saved t).map physical)
        (Within (env "print_buffer") 32) (body t ++ tail t, p₁) (tail t, q) ∧ q.sp = p₁.sp ∧
      q.output = p.output ++ Text.ofInt (p.cpu.slot 1).toInt ++ [10] ∧
      ∀ r ∈ lost t, q.reg r = 1 ∨ q.reg r = env "newline" ∨
        ∃ k, q.reg r = (p.answers k).setWidth _ := by
  obtain ⟨q₁, h₁, hready, hout₁⟩ := convert_passage h hent
  obtain ⟨q₂, h₂, hwritten⟩ := write_passage env (routine t) (tail t) q₁ hready
  have hall := h₁.trans (h₂.mono (regs_subset t).2.2.2 fun _ hb => hb.elim)
  refine ⟨q₂, hall, hall.touches.reg (pointers_not_mem t).1, ?_, fun r hr => ?_⟩
  · rw [hwritten.output, hout₁, hent.output]
  · refine (hwritten.lost r hr).imp_right fun h => h.imp_right ?_
    rintro ⟨k, hk⟩
    obtain ⟨i, hi⟩ := h₁.touches.answers k
    obtain ⟨j, hj⟩ := hent.touches.answers i
    exact ⟨j, by rw [hk, hi, hj]⟩

theorem Layout.apart (h : Layout env p) {b : t.Word} (hb : Within (env "print_buffer") 32 b) :
    ¬ Within (p.sp - BitVec.ofNat _ (Framed.depth t (saved t) 0))
        ((saved t).length * t.wordSize) b ∧
      ¬ Within (p.sp - BitVec.ofNat _ t.wordSize) t.wordSize b := by
  have hsaved : (saved t).length * t.wordSize ≤ 4 * t.wordSize := by cases t <;> decide
  refine ⟨fun hin => h.buffer b hb ?_, fun hin => h.buffer b hb ?_⟩
  · rw [depth_eq] at hin
    exact hin.below hsaved
  · exact (hin.below le_rfl).mono (by omega)

/-- The run of the routine: what it writes, and what it leaves as it was. -/
theorem returns (h : Layout env p) :
    ∃ q, Returns env (routine t) p q ∧
      q.output = p.output ++ Text.ofInt (p.cpu.slot 1).toInt ++ [10] ∧
      Touches (scratch t) (fun b => Within (env "print_buffer") 32 b ∨ Below p.sp (4 * t.wordSize) b)
        p q ∧
      ∀ r ∈ lost t, q.reg r = 1 ∨ q.reg r = env "newline" ∨
        ∃ k, q.reg r = (p.answers k).setWidth _ := by
  obtain ⟨q₁, q, ⟨hout, hlost⟩, hsame, hret, htouches, hregs⟩ := (framed env).returns p
    (fun b hb => h.apart hb) (fun name hname => (List.mem_append.mp hname).imp_right .inr)
    (pointers_not_mem t).2 (fun p₁ hent => body_passage h hent)
  rw [depth_eq] at htouches
  refine ⟨q, hret, hsame.trans hout, htouches, fun r hr => ?_⟩
  obtain ⟨hsaved, hsp, hbp⟩ := lost_apart t r hr
  have hkept : q.reg r = q₁.reg r := hregs _ hsaved hsp hbp
  rw [hkept]
  exact hlost r hr

/-- The routine writes the signed number in its argument in decimal, with a newline, for every word
and whatever is in registers and memory.  It comes to its return, so no division on the way has a
quotient that does not fit. -/
theorem prints_decimal (t : Target) (env : Text → t.Word) (p : Process t) (h : Layout env p) :
    ∃ q, Returns env (routine t) p q ∧
      q.output = p.output ++ Text.ofInt (p.cpu.slot 1).toInt ++ [10] ∧
      (∃ new, q.stores = new ++ p.stores ∧
        ∀ b ∈ new, Within (env "print_buffer") 32 b ∨ Below p.sp (4 * t.wordSize) b) ∧
      q.sp = p.sp ∧ q.reg t.basePointer = p.reg t.basePointer ∧
      ∀ r ∈ saved t, q.reg r = p.reg r := by
  obtain ⟨q, hret, hout, htouches, -⟩ := returns h
  obtain ⟨hsp, hbp⟩ : physical t.stackPointer ∉ scratch t ∧ physical t.basePointer ∉ scratch t := by
    cases t <;> decide
  have hsaved : ∀ r ∈ saved t, physical r ∉ scratch t := by cases t <;> decide
  exact ⟨q, hret, hout, htouches.stores, htouches.reg hsp, htouches.reg hbp,
    fun r hr => htouches.reg (hsaved r hr)⟩

/-- Addresses for a process that is about to print the least word. -/
def leastEnv (name : Text) : Target.bits16.Word := if name = "print_buffer" then 0x200 else 0x300

/-- The stack goes down from 0x1000, and the argument is 0x8000. -/
def least : Process .bits16 where
  cpu := ⟨fun _ => 0x1000, fun a => if a = 0x1003 then 0x80 else if a = 0x300 then 10 else 0⟩
  flags := .undefined
  output := []
  stores := []
  answers := fun _ => 0

theorem prints_decimal_least : Layout leastEnv least ∧
    ∃ q, Returns leastEnv (routine .bits16) least q ∧ q.output = "-32768\n" := by
  have hlayout : Layout leastEnv least := by
    refine ⟨?_, by decide, ?_, ?_⟩
    · rintro b ⟨k, hk, rfl⟩ ⟨j, hj, heq⟩
      have hj' : j < 8 := hj
      have heq' : (0x200 : BitVec 16) + BitVec.ofNat 16 k = 0x1000 - BitVec.ofNat 16 (j + 1) := heq
      bv_omega
    · rintro ⟨j, hj, heq⟩
      have hj' : j < 8 := hj
      have heq' : (0x300 : BitVec 16) = 0x1000 - BitVec.ofNat 16 (j + 1) := heq
      bv_omega
    · rintro ⟨k, hk, heq⟩
      have heq' : (0x300 : BitVec 16) = 0x200 + BitVec.ofNat 16 k := heq
      bv_omega
  obtain ⟨q, hret, hout, -⟩ := prints_decimal .bits16 leastEnv least hlayout
  exact ⟨hlayout, q, hret, hout.trans (by decide)⟩

end Assembly.Routine.PrintInt
