import Assembly.Routine.PrintFloat
import Assembly.Proofs.Routine.PrintInt

/-!
# The run of the routine for floating-point numbers

`print_float` comes to its return whatever the floating-point unit answers.  What it prints is not
followed here: the digits of the integer part are those of some number, and the fraction is six
bytes.
-/

namespace Assembly.Routine.PrintFloat

open Process

variable {t : Target}

theorem regs_fits (t : Target) : (regs t).Fits t := by
  cases t <;> exact ⟨by decide, by decide, by decide, by decide, by decide, by decide⟩

/-! ## The code -/

/-- The bytes for the local words of the narrow target. -/
def room (t : Target) : Nat := if t = .bits16 then 8 else 0

/-- The lines between the pushes and the pops. -/
def body (t : Target) : List Line :=
  let r := regs t
  splitNumber t ++ (openBuffer r "float_buf" ++ (digitLoop r ".int_loop" ++
    (signDigits r ".write_point" ++ (keepStart t ++ (writePoint r ++ (fractionLoop t ++
      (writeNewline r ++ write t)))))))

/-- The code behind the body. -/
def tail (t : Target) : List Line := popAll (saved t) ++ leave t

theorem reserve_passage (env : Text → t.Word) (code rest : List Line) (p : Process t) :
    ∃ q, Passage env code [physical t.stackPointer] (fun _ => False) (reserve t ++ rest, p)
      (rest, q) ∧ q.sp = p.sp - BitVec.ofNat _ (room t) ∧ q.output = p.output := by
  cases t with
  | bits16 =>
    have hstart : Passage env code [physical Target.bits16.stackPointer] (fun _ => False)
      (reserve .bits16 ++ rest, p) (reserve .bits16 ++ rest, p) := .refl _
    obtain ⟨f, hsub⟩ := hstart.sub (y := 8) Target.bits16.view?_stackPointer rfl List.mem_cons_self
    exact ⟨_, hsub, reg_set_self p _ _, rfl⟩
  | bits32 | bits64 => exact ⟨p, .refl _, (sub_zero _).symm, rfl⟩

theorem framed (env : Text → t.Word) : Framed t env (routine t) (saved t) (room t) (body t) := by
  refine ⟨⟨"print_float", reserve t, ?_, fun rest p => reserve_passage env _ rest p⟩, ?_, ?_⟩
  · simp only [routine, body, List.append_assoc]
  · cases t <;> decide
  · cases t <;> decide

/-! ## The parts of the number -/

/-- The two wider targets have the same code. -/
theorem splitNumber_wide (ht : t ≠ .bits16) : splitNumber t =
    [.op .movss [.reg "xmm0", .mem (.above t.basePointer (2 * t.wordSize))],
      .op .cvtss2sd [.reg "xmm0", .reg "xmm0"],
      .op .pxor [.reg "xmm1", .reg "xmm1"],
      .op .ucomisd [.reg "xmm0", .reg "xmm1"],
      .op .jae [.sym ".positive_float"],
      .op .mov [.reg (regs t).negative, .num 1],
      .op .movsd [.reg "xmm1", .reg "xmm0"],
      .op .xorpd [.reg "xmm0", .reg "xmm0"],
      .op .subsd [.reg "xmm0", .reg "xmm1"],
      .op .jmp [.sym ".extract_int"],
      .label ".positive_float",
      .op .xor [.reg (regs t).negative, .reg (regs t).negative],
      .label ".extract_int",
      .op .cvttsd2si [.reg (regs t).number, .reg "xmm0"],
      .op .cvtsi2sd [.reg "xmm1", .reg (regs t).number],
      .op .subsd [.reg "xmm0", .reg "xmm1"]] := by
  cases t with
  | bits16 => exact absurd rfl ht
  | bits32 | bits64 => rfl

section

variable (code rest : List Line)

theorem extract_wide (ht : t ≠ .bits16) (env : Text → t.Word) (q : Process t) :
    ∃ q', Passage env code [physical "rax", physical (regs t).negative] (fun _ => False)
      ((splitNumber t).drop 13 ++ rest, q) (rest, q') := by
  have hr := regs_fits t
  have hstart : Passage env code [physical "rax", physical (regs t).negative] (fun _ => False)
    ((splitNumber t).drop 13 ++ rest, q) ((splitNumber t).drop 13 ++ rest, q) := .refl _
  nth_rewrite 2 [splitNumber_wide ht] at hstart
  have h₁ := hstart.putAnswer rfl rfl (hr.full _ (by simp)) (by simp [hr.number])
  exact ⟨_, (h₁.skip rfl rfl).skip rfl rfl⟩

/-- The number and its sign may become anything. -/
theorem split_wide (ht : t ≠ .bits16) (env : Text → t.Word) (q : Process t)
    (hpositive : seek code ".positive_float" = some ((splitNumber t).drop 11 ++ rest))
    (hextract : seek code ".extract_int" = some ((splitNumber t).drop 13 ++ rest)) :
    ∃ q', Passage env code [physical "rax", physical (regs t).negative] (fun _ => False)
      (splitNumber t ++ rest, q) (rest, q') := by
  have hr := regs_fits t
  have hview : t.view? (regs t).negative = some ⟨0, t.wordSize⟩ := hr.full _ (by simp)
  have hstart : Passage env code [physical "rax", physical (regs t).negative] (fun _ => False)
    (splitNumber t ++ rest, q) (splitNumber t ++ rest, q) := .refl _
  nth_rewrite 2 [splitNumber_wide ht] at hstart
  rw [splitNumber_wide ht] at hpositive
  have h₁ := ((hstart.skip rfl rfl).skip rfl rfl).skip rfl rfl
  have h₂ := h₁.exec rfl rfl ((Touches.refl q).next.withFlags _)
  have h₃ := h₂.jumpIf (!decide (q.answer 1 = 1)) rfl hpositive
  cases hbelow : decide (q.answer 1 = 1) with
  | false =>
    rw [hbelow, Bool.not_false, if_pos rfl] at h₃
    obtain ⟨f, h₄⟩ := h₃.xorSelf hview (by simp)
    obtain ⟨q', hq'⟩ := extract_wide code rest ht env ((q.next.withFlags _).set _ 0 |>.withFlags f)
    rw [splitNumber_wide ht] at hq'
    exact ⟨q', h₄.label.trans hq'⟩
  | true =>
    rw [hbelow, Bool.not_true, if_neg Bool.false_ne_true] at h₃
    have h₄ := h₃.mov hview rfl (by simp)
    have h₅ := (((h₄.skip rfl rfl).skip rfl rfl).skip rfl rfl).jump hextract
    obtain ⟨q', hq'⟩ := extract_wide code rest ht env _
    exact ⟨q', h₅.trans hq'⟩

theorem below_of_local {q : Process .bits16} {k n : Nat} {b : Target.bits16.Word}
    (hb : Within (q.reg "bp" - BitVec.ofNat _ k) n b) (hn : n ≤ k) (hk : k ≤ 8) :
    Below (q.reg "bp") 8 b :=
  (hb.below hn).mono hk

theorem extract_bits16 (env : Text → Target.bits16.Word) (q : Process .bits16) :
    ∃ q', Passage env code ["rax", "rdi"] (Below (q.reg "bp") 8)
      ((splitNumber .bits16).drop 16 ++ rest, q) (rest, q') := by
  have hstart : Passage env code ["rax", "rdi"] (Below (q.reg "bp") 8)
    ((splitNumber .bits16).drop 16 ++ rest, q) ((splitNumber .bits16).drop 16 ++ rest, q) := .refl _
  have h₁ := (hstart.skip rfl rfl).storeAnswer (.below "bp" 6) 2 rfl rfl rfl fun b hb =>
    below_of_local (q := q) (k := 6) hb (by decide) (by decide)
  have h₂ := ((h₁.skip rfl rfl).skip rfl rfl).mov (d := "ax") (by decide) rfl (by decide)
  exact ⟨_, h₂⟩

theorem split_bits16 (env : Text → Target.bits16.Word) (q : Process .bits16)
    (hpositive : seek code ".positive_float" = some ((splitNumber .bits16).drop 14 ++ rest))
    (hextract : seek code ".extract_int" = some ((splitNumber .bits16).drop 16 ++ rest)) :
    ∃ q', Passage env code ["rax", "rdi"] (Below (q.reg "bp") 8)
      (splitNumber .bits16 ++ rest, q) (rest, q') := by
  have hstart : Passage env code ["rax", "rdi"] (Below (q.reg "bp") 8)
    (splitNumber .bits16 ++ rest, q) (splitNumber .bits16 ++ rest, q) := .refl _
  have h₁ := hstart.storeAnswer (.below "bp" 2) 2 rfl rfl rfl fun b hb =>
    below_of_local (q := q) (k := 2) hb (by decide) (by decide)
  have h₂ := h₁.mov (d := "ax") (by decide) rfl (by decide)
  have hax : Target.bits16.view? "ax" = some ⟨0, 2⟩ := by decide
  have h₃ := h₂.combine (· ||| ·) (fun _ _ => false) rfl rfl hax (value?_part hax) rfl (by decide)
  have h₄ := h₃.storeReg rfl hax fun b hb => below_of_local (q := q) (k := 4) hb (by decide) (by decide)
  have h₅ := ((h₄.skip rfl rfl).skip rfl rfl).skip rfl rfl
  have h₆ := h₅.putAnswer rfl rfl hax (by decide)
  have h₇ := h₆.exec rfl rfl ((Touches.refl _).withFlags _)
  generalize hq : Process.withFlags _ _ = q₁ at h₇
  have hbp : q₁.reg "bp" = q.reg "bp" := by
    rw [← hq]
    rfl
  obtain ⟨c, hc⟩ : ∃ c, q₁.flags.carry = some c := by
    rw [← hq]
    exact ⟨_, rfl⟩
  have hstep : step env code (Line.op .jae [.sym ".positive_float"] ::
      ((splitNumber .bits16).drop 10 ++ rest), q₁) =
      branch code ((splitNumber .bits16).drop 10 ++ rest) q₁ (some (!c))
        [.sym ".positive_float"] := by
    show branch code ((splitNumber .bits16).drop 10 ++ rest) q₁ (q₁.flags.carry.map not)
      [.sym ".positive_float"] = _
    rw [hc]
    rfl
  have h₈ := h₇.jumpIf (!c) hstep hpositive
  cases c with
  | false =>
    obtain ⟨f, h₉⟩ := h₈.xorSelf (d := "di") (by decide) (by decide)
    obtain ⟨q', hq'⟩ := extract_bits16 code rest env ((q₁.set "di" 0).withFlags f)
    rw [reg_withFlags, reg_set_of_ne _ _ (by decide), hbp] at hq'
    exact ⟨q', h₉.label.trans hq'⟩
  | true =>
    have h₉ := h₈.mov (d := "di") (by decide) rfl (by decide)
    have h₁₀ := (h₉.skip rfl rfl).jump hextract
    obtain ⟨q', hq'⟩ := extract_bits16 code rest env (q₁.set "di" (BitVec.ofInt _ 1))
    rw [reg_set_of_ne _ _ (by decide), hbp] at hq'
    exact ⟨q', h₁₀.trans hq'⟩

end

/-! ## The fraction -/

/-- One turn of the loop counts down, and stores one byte in the buffer. -/
def Turn (env : Text → t.Word) (code rest : List Line) (touched : List Text)
    (area : t.Word → Prop) (q q' : Process t) : Prop :=
  Passage env code touched area ((fractionLoop t).drop 2 ++ rest, q)
      (if q.reg "rcx" - 1 ≠ 0 then (fractionLoop t).drop 2 ++ rest else rest, q') ∧
    q'.sp = q.sp ∧ q'.reg t.basePointer = q.reg t.basePointer ∧ q'.reg "rcx" = q.reg "rcx" - 1 ∧
    q'.reg (regs t).place = q.reg (regs t).place + 1

section

variable (env : Text → t.Word) (code rest : List Line) {touched : List Text} {area : t.Word → Prop}
  {s base : t.Word}

/-- The loop, from what one turn does wherever the place is in the buffer. -/
theorem turns (hturn : ∀ q j, q.sp = s → q.reg t.basePointer = base → j < 64 →
      q.reg (regs t).place = env "float_buf" + BitVec.ofNat _ j →
      ∃ q', Turn env code rest touched area q q') (k : Nat) :
    ∀ q j, q.sp = s → q.reg t.basePointer = base → j + k < 64 →
      q.reg (regs t).place = env "float_buf" + BitVec.ofNat _ j →
      q.reg "rcx" = BitVec.ofNat _ (k + 1) →
      ∃ q', Passage env code touched area ((fractionLoop t).drop 2 ++ rest, q) (rest, q') ∧
        q'.sp = s ∧ q'.reg t.basePointer = base ∧
        q'.reg (regs t).place = env "float_buf" + BitVec.ofNat _ (j + k + 1) := by
  have hnext : ∀ j, env "float_buf" + BitVec.ofNat _ j + 1 =
      env "float_buf" + BitVec.ofNat _ (j + 1) := by
    intro j
    rw [BitVec.ofNat_add, ← BitVec.add_assoc]
    rfl
  have hpred : ∀ k, BitVec.ofNat (8 * t.wordSize) (k + 1) - 1 = BitVec.ofNat _ k := by
    intro k
    rw [BitVec.ofNat_add]
    exact add_sub_cancel_right _ _
  induction k with
  | zero =>
    intro q j hsp hbp hj hplace hcount
    obtain ⟨q', hpass, hsp', hbp', hcount', hplace'⟩ := hturn q j hsp hbp hj hplace
    have hdone : ¬ BitVec.ofNat (8 * t.wordSize) 0 ≠ 0 := not_not.mpr rfl
    rw [hcount, hpred, if_neg hdone] at hpass
    exact ⟨q', hpass, hsp'.trans hsp, hbp'.trans hbp, by rw [hplace', hplace, hnext]⟩
  | succ k ih =>
    intro q j hsp hbp hj hplace hcount
    obtain ⟨q₁, hpass, hsp₁, hbp₁, hcount₁, hplace₁⟩ := hturn q j hsp hbp (by omega) hplace
    have hmore : BitVec.ofNat (8 * t.wordSize) (k + 1) ≠ 0 := by
      have hbuffer := t.buffer_le
      intro hzero
      have hnat := congrArg BitVec.toNat hzero
      rw [BitVec.toNat_ofNat, Nat.mod_eq_of_lt (by omega)] at hnat
      simp at hnat
    rw [hcount, hpred, if_pos hmore] at hpass
    rw [hcount, hpred] at hcount₁
    rw [hplace, hnext] at hplace₁
    obtain ⟨q₂, hpass₂, hsp₂, hbp₂, hplace₂⟩ := ih q₁ (j + 1) (hsp₁.trans hsp) (hbp₁.trans hbp)
      (by omega) hplace₁ hcount₁
    refine ⟨q₂, hpass.trans hpass₂, hsp₂, hbp₂, ?_⟩
    rw [hplace₂]
    congr 2
    omega

end

theorem within_buffer {buffer place b : t.Word} {j n : Nat} (hj : j < 64)
    (hplace : place = buffer + BitVec.ofNat _ j) (hn : n = 1) (hb : Within place n b) :
    Within buffer 64 b := by
  rw [hplace] at hb
  exact hb.add.mono (by omega)

theorem turn_bits16 (env : Text → Target.bits16.Word) (code rest : List Line)
    (q : Process .bits16) {j : Nat} (hj : j < 64)
    (hseek : seek code ".frac_loop" = some ((fractionLoop .bits16).drop 2 ++ rest))
    (hplace : q.reg "si" = env "float_buf" + BitVec.ofNat _ j) :
    ∃ q', Turn env code rest ["rax", "rcx", "rsi"]
      (fun b => Within (env "float_buf") 64 b ∨ Below (q.reg "bp") 8 b) q q' := by
  have hal : Target.bits16.view? "al" = some ⟨0, 1⟩ := by decide
  have hstart : Passage env code ["rax", "rcx", "rsi"]
    (fun b => Within (env "float_buf") 64 b ∨ Below (q.reg "bp") 8 b)
    ((fractionLoop .bits16).drop 2 ++ rest, q) ((fractionLoop .bits16).drop 2 ++ rest, q) := .refl _
  have h₁ := hstart.storeSized rfl rfl fun b hb =>
    .inr (below_of_local (q := q) (k := 6) hb (by decide) (by decide))
  have h₂ := ((h₁.skip rfl rfl).skip rfl rfl).storeAnswer (.below "bp" 8) 2 rfl rfl rfl fun b hb =>
    .inr (below_of_local (q := q) (k := 8) hb (by decide) (by decide))
  have h₃ := ((h₂.skip rfl rfl).skip rfl rfl).mov (d := "ax") (by decide) rfl (by decide)
  obtain ⟨f, h₄⟩ := h₃.addPart hal rfl (by decide)
  have h₅ := h₄.storeReg rfl hal fun b hb => .inl (within_buffer hj hplace rfl hb)
  obtain ⟨g, h₆⟩ := h₅.inc (d := "si") (by decide) (by decide)
  have h₇ := h₆.loop hseek (by decide)
  exact ⟨_, h₇, rfl, rfl, rfl, rfl⟩

/-- The digit of a turn of the middle target, between the push and the pop of the count. -/
theorem digit_bits32 (env : Text → Target.bits32.Word) (code rest : List Line)
    (q : Process .bits32) {j : Nat} (hj : j < 64)
    (hplace : q.reg "esi" = env "float_buf" + BitVec.ofNat _ j) :
    ∃ q', Passage env code ["rcx", "rsi", "rsp"]
        (fun b => Within (env "float_buf") 64 b ∨ Below q.sp 4 b)
        ((fractionLoop .bits32).drop 3 ++ rest, q) ((fractionLoop .bits32).drop 14 ++ rest, q') ∧
      q'.sp = q.sp ∧ q'.reg "esi" = q.reg "esi" + 1 := by
  have hecx : Target.bits32.view? "ecx" = some ⟨0, 4⟩ := by decide
  have hcl : Target.bits32.view? "cl" = some ⟨0, 1⟩ := by decide
  have hstart : Passage env code ["rcx", "rsi", "rsp"]
    (fun b => Within (env "float_buf") 64 b ∨ Below q.sp 4 b)
    ((fractionLoop .bits32).drop 3 ++ rest, q) ((fractionLoop .bits32).drop 3 ++ rest, q) := .refl _
  have h₁ := hstart.mov (d := "ecx") (by decide) rfl (by decide)
  have h₂ := ((h₁.skip rfl rfl).skip rfl rfl).putAnswer rfl rfl hecx (by decide)
  have h₃ := h₂.push hecx (by decide) fun b hb => .inr (Within.below (a := q.sp) hb (by decide))
  have h₄ := ((h₃.skip rfl rfl).skip rfl rfl).pop hecx (by decide) (by decide)
  obtain ⟨f, h₅⟩ := h₄.addPart hcl rfl (by decide)
  have h₆ := h₅.storeReg rfl hcl fun b hb => .inl (within_buffer hj hplace rfl hb)
  obtain ⟨g, h₇⟩ := h₆.inc (d := "esi") (by decide) (by decide)
  exact ⟨_, h₇, sub_add_cancel q.sp _, rfl⟩

/-- The turn of the middle target keeps its count on the stack. -/
theorem turn_bits32 (env : Text → Target.bits32.Word) (code rest : List Line)
    (q : Process .bits32) {j : Nat} (hj : j < 64)
    (hapart : ∀ b, Within (env "float_buf") 64 b → ¬ Below q.sp 8 b)
    (hseek : seek code ".frac_loop" = some ((fractionLoop .bits32).drop 2 ++ rest))
    (hplace : q.reg "esi" = env "float_buf" + BitVec.ofNat _ j) :
    ∃ q', Turn env code rest ["rcx", "rsi", "rsp"]
      (fun b => Within (env "float_buf") 64 b ∨ Below q.sp 8 b) q q' := by
  have hecx : Target.bits32.view? "ecx" = some ⟨0, 4⟩ := by decide
  have hstart : Passage env code ["rcx", "rsi", "rsp"]
    (fun b => Within (env "float_buf") 64 b ∨ Below q.sp 8 b)
    ((fractionLoop .bits32).drop 2 ++ rest, q) ((fractionLoop .bits32).drop 2 ++ rest, q) := .refl _
  have hpush := hstart.push hecx (by decide) fun b hb => .inr ((hb.below le_rfl).mono (by decide))
  have hsp₁ : (q.push (q.reg "ecx")).sp = q.sp - BitVec.ofNat _ 4 := sp_push q _
  have hold₁ : (q.push (q.reg "ecx")).Holds (q.push (q.reg "ecx")).sp [q.reg "ecx"] :=
    (Holds.nil q _).push _ (by decide)
  obtain ⟨q₂, hdigit, hsp₂, hplace₂⟩ := digit_bits32 env code rest (q.push (q.reg "ecx")) hj hplace
  have hold₂ : q₂.Holds q₂.sp [q.reg "ecx"] := by
    rw [hsp₂]
    refine hold₁.touches hdigit.touches fun b hb hor => ?_
    have hword : Within (q.push (q.reg "ecx")).sp 4 b := hb
    rcases hor with hbuf | hbelow
    · rw [hsp₁] at hword
      exact hapart b hbuf ((hword.below le_rfl).mono (by decide))
    · exact hword.not_below (by decide) hbelow
  have hpop := (hpush.trans (hdigit.mono (List.Subset.refl _) fun b hb => hb.imp_right fun h => by
    rw [hsp₁] at h
    exact h.sub)).pop hecx (by decide) (by decide)
  have hloop := hpop.loop hseek (by decide)
  have hsp₃ : q₂.sp + BitVec.ofNat _ 4 = q.sp := by
    rw [hsp₂, hsp₁]
    exact sub_add_cancel _ _
  have hcount : (q₂.drop.set "ecx" q₂.top).reg "rcx" = q.reg "rcx" := hold₂.top
  rw [hcount] at hloop
  exact ⟨(q₂.drop.set "ecx" q₂.top).set "rcx" (q.reg "rcx" - 1), hloop, hsp₃,
    hloop.touches.reg (by decide), rfl, hplace₂⟩

theorem turn_bits64 (env : Text → Target.bits64.Word) (code rest : List Line)
    (q : Process .bits64) {j : Nat} (hj : j < 64)
    (hseek : seek code ".frac_loop" = some ((fractionLoop .bits64).drop 2 ++ rest))
    (hplace : q.reg "rsi" = env "float_buf" + BitVec.ofNat _ j) :
    ∃ q', Turn env code rest ["rcx", "rsi", "r12", "r15"] (Within (env "float_buf") 64) q q' := by
  have hr12 : Target.bits64.view? "r12" = some ⟨0, 8⟩ := by decide
  have hr12b : Target.bits64.view? "r12b" = some ⟨0, 1⟩ := by decide
  have hstart : Passage env code ["rcx", "rsi", "r12", "r15"] (Within (env "float_buf") 64)
    ((fractionLoop .bits64).drop 2 ++ rest, q) ((fractionLoop .bits64).drop 2 ++ rest, q) := .refl _
  have h₁ := hstart.mov (d := "r15") (by decide) rfl (by decide)
  have h₂ := ((h₁.skip rfl rfl).skip rfl rfl).putAnswer rfl rfl hr12 (by decide)
  obtain ⟨f, h₃⟩ := ((h₂.skip rfl rfl).skip rfl rfl).addPart hr12 rfl (by decide)
  have h₄ := h₃.storeReg rfl hr12b fun b hb => within_buffer hj hplace rfl hb
  obtain ⟨g, h₅⟩ := h₄.inc (d := "rsi") (by decide) (by decide)
  have h₆ := h₅.loop hseek (by decide)
  exact ⟨_, h₆, rfl, rfl, rfl, rfl⟩

/-- What a turn changes. -/
def turnRegs : Target → List Text
  | .bits16 => ["rax", "rcx", "rsi"]
  | .bits32 => ["rcx", "rsi", "rsp"]
  | .bits64 => ["rcx", "rsi", "r12", "r15"]

/-- Where a turn stores beside the buffer: in the local words, or on the stack. -/
def turnArea : (t : Target) → t.Word → t.Word → t.Word → Prop
  | .bits16, _, base => Below base 8
  | .bits32, s, _ => Below s 8
  | .bits64, _, _ => fun _ => False

theorem turn (env : Text → t.Word) (code rest : List Line) (q : Process t) {j : Nat} (hj : j < 64)
    (hapart : ∀ b, Within (env "float_buf") 64 b → ¬ turnArea t q.sp (q.reg t.basePointer) b)
    (hseek : seek code ".frac_loop" = some ((fractionLoop t).drop 2 ++ rest))
    (hplace : q.reg (regs t).place = env "float_buf" + BitVec.ofNat _ j) :
    ∃ q', Turn env code rest (turnRegs t)
      (fun b => Within (env "float_buf") 64 b ∨ turnArea t q.sp (q.reg t.basePointer) b) q q' := by
  cases t with
  | bits16 => exact turn_bits16 env code rest q hj hseek hplace
  | bits32 => exact turn_bits32 env code rest q hj hapart hseek hplace
  | bits64 =>
    obtain ⟨q', h, hrest⟩ := turn_bits64 env code rest q hj hseek hplace
    exact ⟨q', h.mono (List.Subset.refl _) fun _ hb => .inl hb, hrest⟩

section

variable (env : Text → t.Word) (code rest : List Line) (q : Process t)

theorem writePoint_passage {r : DigitRegs} (hr : r.Fits t) :
    ∃ q', Passage env code [physical r.place] (Within (env "float_buf") 64) (writePoint r ++ rest, q)
      (rest, q') ∧ q'.reg r.place = env "float_buf" + BitVec.ofNat _ 32 := by
  have hview : t.view? r.place = some ⟨0, t.wordSize⟩ := hr.full _ (by simp)
  have hstart : Passage env code [physical r.place] (Within (env "float_buf") 64)
    (writePoint r ++ rest, q) (writePoint r ++ rest, q) := .refl _
  have haddr : q.cpu.address? env (.above "float_buf" 31) =
      some (env "float_buf" + BitVec.ofNat _ 31) := by
    rw [Cpu.address?, Cpu.base?_symbol env q.cpu (by decide)]
    rfl
  have hlea := hstart.lea hview haddr List.mem_cons_self
  have hstore := hlea.storeSized (Cpu.base?_full env _ hview) rfl fun b hb =>
    within_buffer (by decide) (reg_set_self q r.place _) rfl hb
  obtain ⟨f, hinc⟩ := hstore.inc hview List.mem_cons_self
  refine ⟨_, hinc, ?_⟩
  rw [reg_withFlags, reg_set_self, reg_store, reg_set_self, BitVec.add_assoc]
  exact congrArg (_ + ·) (BitVec.ofNat_add 31 1).symm

theorem writeNewline_passage {r : DigitRegs} (hr : r.Fits t) {j : Nat} (hj : j < 64)
    (hplace : q.reg r.place = env "float_buf" + BitVec.ofNat _ j) :
    ∃ q', Passage env code [physical r.place] (Within (env "float_buf") 64)
      (writeNewline r ++ rest, q) (rest, q') ∧
      q'.reg r.place = env "float_buf" + BitVec.ofNat _ (j + 1) := by
  have hview : t.view? r.place = some ⟨0, t.wordSize⟩ := hr.full _ (by simp)
  have hstart : Passage env code [physical r.place] (Within (env "float_buf") 64)
    (writeNewline r ++ rest, q) (writeNewline r ++ rest, q) := .refl _
  have hstore := hstart.storeSized (Cpu.base?_full env _ hview) rfl fun b hb =>
    within_buffer hj hplace rfl hb
  obtain ⟨f, hinc⟩ := hstore.inc hview List.mem_cons_self
  refine ⟨_, hinc, ?_⟩
  rw [reg_withFlags, reg_set_self, reg_store, hplace, BitVec.ofNat_add, BitVec.add_assoc]
  rfl

/-- The register that counts the turns. -/
def counter : Target → Text
  | .bits16 => "cx"
  | .bits32 => "ecx"
  | .bits64 => "rcx"

theorem counter_spec (t : Target) : t.view? (counter t) = some ⟨0, t.wordSize⟩ ∧
    physical (counter t) = physical "rcx" ∧ physical (counter t) ∈ turnRegs t := by
  cases t <;> decide

theorem fractionLoop_eq (t : Target) : fractionLoop t =
    Line.op .mov [.reg (counter t), .num 6] :: .label ".frac_loop" :: (fractionLoop t).drop 2 := by
  cases t <;> rfl

theorem place_spec (t : Target) : [physical (regs t).place] ⊆ turnRegs t ∧
    physical t.stackPointer ∉ [physical (regs t).place] ∧
    physical t.basePointer ∉ [physical (regs t).place] ∧
    physical t.stackPointer ≠ physical (counter t) ∧
    physical t.basePointer ≠ physical (counter t) ∧
    physical (regs t).place ≠ physical (counter t) := by
  cases t <;> decide

/-- The point, six turns and the newline. -/
theorem fraction_passage
    (hapart : ∀ b, Within (env "float_buf") 64 b → ¬ turnArea t q.sp (q.reg t.basePointer) b)
    (hseek : seek code ".frac_loop" =
      some ((fractionLoop t).drop 2 ++ (writeNewline (regs t) ++ rest))) :
    ∃ q', Passage env code (turnRegs t)
        (fun b => Within (env "float_buf") 64 b ∨ turnArea t q.sp (q.reg t.basePointer) b)
        (writePoint (regs t) ++ (fractionLoop t ++ (writeNewline (regs t) ++ rest)), q) (rest, q') ∧
      q'.sp = q.sp ∧ q'.reg t.basePointer = q.reg t.basePointer ∧
      q'.reg (regs t).place = env "float_buf" + BitVec.ofNat _ 39 := by
  have hr := regs_fits t
  obtain ⟨hview, hrcx, hcounter⟩ := counter_spec t
  obtain ⟨hplaces, hsp, hbp, hspc, hbpc, hplacec⟩ := place_spec t
  obtain ⟨q₁, h₁, hplace₁⟩ := writePoint_passage env code
    (fractionLoop t ++ (writeNewline (regs t) ++ rest)) q hr
  have hsp₁ : q₁.sp = q.sp := h₁.touches.reg hsp
  have hbp₁ : q₁.reg t.basePointer = q.reg t.basePointer := h₁.touches.reg hbp
  have hpoint : Passage env code (turnRegs t)
      (fun b => Within (env "float_buf") 64 b ∨ turnArea t q.sp (q.reg t.basePointer) b)
      (writePoint (regs t) ++ (fractionLoop t ++ (writeNewline (regs t) ++ rest)), q)
      (fractionLoop t ++ (writeNewline (regs t) ++ rest), q₁) :=
    h₁.mono hplaces fun _ hb => .inl hb
  nth_rewrite 2 [fractionLoop_eq] at hpoint
  have hcount := (hpoint.mov hview rfl hcounter).label
  have hrcx₂ : (q₁.set (counter t) (BitVec.ofInt _ 6)).reg "rcx" = BitVec.ofNat _ (5 + 1) :=
    if_pos hrcx.symm
  have hturn : ∀ (q' : Process t) (j : Nat), q'.sp = q.sp →
      q'.reg t.basePointer = q.reg t.basePointer → j < 64 →
      q'.reg (regs t).place = env "float_buf" + BitVec.ofNat _ j →
      ∃ q'', Turn env code (writeNewline (regs t) ++ rest) (turnRegs t)
        (fun b => Within (env "float_buf") 64 b ∨ turnArea t q.sp (q.reg t.basePointer) b)
        q' q'' := by
    intro q' j hs hb hj hplace
    rw [← hs, ← hb] at hapart ⊢
    exact turn env code _ q' hj hapart hseek hplace
  obtain ⟨q₂, h₂, hsp₂, hbp₂, hplace₂⟩ := turns env code (writeNewline (regs t) ++ rest) hturn 5
    (q₁.set (counter t) (BitVec.ofInt _ 6)) 32 ((reg_set_of_ne q₁ _ hspc).trans hsp₁)
    ((reg_set_of_ne q₁ _ hbpc).trans hbp₁) (by decide)
    ((reg_set_of_ne q₁ _ hplacec).trans hplace₁) hrcx₂
  obtain ⟨q₃, h₃, hplace₃⟩ := writeNewline_passage env code rest q₂ hr (by decide) hplace₂
  refine ⟨q₃, (hcount.trans h₂).trans (h₃.mono hplaces fun _ hb => .inl hb), ?_, ?_, hplace₃⟩
  · exact (h₃.touches.reg hsp).trans hsp₂
  · exact (h₃.touches.reg hbp).trans hbp₂

end

/-! ## The output -/

/-- The code behind the digits of the integer part. -/
def afterDigits (t : Target) : List Line :=
  keepStart t ++ (writePoint (regs t) ++ (fractionLoop t ++ (writeNewline (regs t) ++
    (write t ++ tail t))))

theorem seek_frac (t : Target) : seek (routine t) ".frac_loop" =
    some ((fractionLoop t).drop 2 ++ (writeNewline (regs t) ++ (write t ++ tail t))) := by
  cases t <;> rfl

/-- All registers of the body: scratch, saved, or the stack pointer. -/
def bodyRegs (t : Target) : List Text :=
  physical t.stackPointer :: (PrintInt.scratch t ++ (saved t).map physical)

theorem turnRegs_subset (t : Target) : turnRegs t ⊆ bodyRegs t := by
  cases t <;> decide

/-- Where the body stores beside the buffer: in the local words, or on the stack. -/
def bodyArea : (t : Target) → t.Word → t.Word → t.Word → Prop
  | .bits16, _, base => Below base 8
  | .bits32, s, _ => Below s 12
  | .bits64, _, _ => fun _ => False

/-- What is left in the registers that are lost: the length of what was written, its start, or an
answer of the system. -/
def Left (env : Text → t.Word) (q q' : Process t) : Prop :=
  ∀ r ∈ PrintInt.lost t, (∃ n, 0 < n ∧ n < 64 ∧ q'.reg r = BitVec.ofNat _ n) ∨
    Within (env "float_buf") 64 (q'.reg r) ∨ ∃ k, q'.reg r = (q.answers k).setWidth _

theorem end_sub_start (buffer : t.Word) (n : Nat) :
    buffer + BitVec.ofNat _ 39 - (buffer + BitVec.ofNat _ 31 - BitVec.ofNat _ n) =
      BitVec.ofNat _ (8 + n) := by
  rw [BitVec.ofNat_add 8 31, BitVec.ofNat_add 8 n, sub_eq_iff_eq_add, add_assoc (BitVec.ofNat _ 8),
    add_sub_cancel, add_left_comm]

theorem start_within (buffer : t.Word) {n : Nat} (hn : n ≤ 31) :
    Within buffer 64 (buffer + BitVec.ofNat _ 31 - BitVec.ofNat _ n) := by
  refine ⟨31 - n, by omega, ?_⟩
  have hsum : BitVec.ofNat (8 * t.wordSize) 31 = BitVec.ofNat _ (31 - n) + BitVec.ofNat _ n := by
    rw [← BitVec.ofNat_add, Nat.sub_add_cancel hn]
  rw [hsum, ← BitVec.add_assoc, add_sub_cancel_right]

theorem finish_bits16 (env : Text → Target.bits16.Word) (q : Process .bits16) {n : Nat} (hn : n ≤ 21)
    (hplace : q.reg "si" = env "float_buf" + BitVec.ofNat _ 31 - BitVec.ofNat _ n)
    (hapart : ∀ b, Within (env "float_buf") 64 b → ¬ Below (q.reg "bp") 8 b) :
    ∃ q', Passage env (routine .bits16) (bodyRegs .bits16)
        (fun b => Within (env "float_buf") 64 b ∨ Below (q.reg "bp") 8 b)
        (afterDigits .bits16, q) (tail .bits16, q') ∧ q'.sp = q.sp ∧ Left env q q' := by
  have hah : Target.bits16.view? "ah" = some ⟨1, 1⟩ := by decide
  have hstart : Passage env (routine .bits16) (bodyRegs .bits16)
    (fun b => Within (env "float_buf") 64 b ∨ Below (q.reg "bp") 8 b)
    (afterDigits .bits16, q) (afterDigits .bits16, q) := .refl _
  have h₁ := hstart.mov (d := "di") (by decide) (value?_full (by decide)) (by decide)
  obtain ⟨q₂, h₂, hsp₂, -, hplace₂⟩ := fraction_passage env (routine .bits16) _
    (q.set "di" (q.reg "si")) hapart (seek_frac .bits16)
  have hdi₂ : q₂.reg "di" = q.reg "si" := h₂.touches.reg (by decide)
  have h₃ := (h₁.trans (h₂.mono (turnRegs_subset _) fun _ hb => hb)).skip rfl rfl
  have h₄ := h₃.movPart (x := 0x40) hah rfl (by decide)
  have h₅ := h₄.mov (d := "bx") (x := 1) (by decide) rfl (by decide)
  have h₆ := h₅.mov (d := "cx") (by decide) (value?_full (by decide)) (by decide)
  obtain ⟨f, h₇⟩ := h₆.sub (d := "cx") (by decide) (value?_full (by decide)) (by decide)
  have h₈ := h₇.mov (d := "dx") (by decide) (value?_full (by decide)) (by decide)
  obtain ⟨q₃, h₉, -, -, hregs₃, -⟩ := h₈.trap
    (extract_replace ⟨1, 1⟩ (by decide) (by decide) (q₂.reg "ah") 0x40) rfl (by decide)
  refine ⟨q₃, h₉.skip rfl rfl, (hregs₃ "sp" (by decide)).trans hsp₂, ?_⟩
  have hcx : q₃.reg "cx" = BitVec.ofNat _ (8 + n) := by
    have hdiff : q₃.reg "cx" = q₂.reg "si" - q₂.reg "di" := hregs₃ "cx" (by decide)
    rw [hdiff, hdi₂, hplace]
    exact (congrArg (· - _) hplace₂).trans (end_sub_start _ n)
  have hdx : q₃.reg "dx" = env "float_buf" + BitVec.ofNat _ 31 - BitVec.ofNat _ n := by
    have hcopy : q₃.reg "dx" = q₂.reg "di" := hregs₃ "dx" (by decide)
    rw [hcopy, hdi₂, hplace]
  have hlost : PrintInt.lost .bits16 = (["cx", "dx"] : List Text) := by decide
  rw [Left, hlost, List.forall_mem_cons, List.forall_mem_singleton]
  refine ⟨.inl ⟨8 + n, by omega, by omega, hcx⟩, .inr (.inl ?_)⟩
  rw [hdx]
  exact start_within _ (by omega)

theorem finish_bits32 (env : Text → Target.bits32.Word) (q : Process .bits32) {n : Nat} (hn : n ≤ 21)
    (hplace : q.reg "esi" = env "float_buf" + BitVec.ofNat _ 31 - BitVec.ofNat _ n)
    (hapart : ∀ b, Within (env "float_buf") 64 b → ¬ Below q.sp 12 b) :
    ∃ q', Passage env (routine .bits32) (bodyRegs .bits32)
        (fun b => Within (env "float_buf") 64 b ∨ Below q.sp 12 b)
        (afterDigits .bits32, q) (tail .bits32, q') ∧ q'.sp = q.sp ∧ Left env q q' := by
  have hstart : Passage env (routine .bits32) (bodyRegs .bits32)
    (fun b => Within (env "float_buf") 64 b ∨ Below q.sp 12 b)
    (afterDigits .bits32, q) (afterDigits .bits32, q) := .refl _
  have h₁ := hstart.push (r := "esi") (by decide) (by decide) fun b hb =>
    .inr ((hb.below le_rfl).mono (by decide))
  have hsp₁ : (q.push (q.reg "esi")).sp = q.sp - BitVec.ofNat _ 4 := sp_push q _
  have hold₁ : (q.push (q.reg "esi")).Holds (q.push (q.reg "esi")).sp [q.reg "esi"] :=
    (Holds.nil q _).push _ (by decide)
  have hbelow : ∀ b, Below (q.push (q.reg "esi")).sp 8 b → Below q.sp 12 b := by
    intro b hb
    rw [hsp₁] at hb
    exact hb.sub
  obtain ⟨q₂, h₂, hsp₂, -, hplace₂⟩ := fraction_passage env (routine .bits32) _
    (q.push (q.reg "esi")) (fun b hb hin => hapart b hb (hbelow b hin)) (seek_frac .bits32)
  have hold₂ : q₂.Holds q₂.sp [q.reg "esi"] := by
    rw [hsp₂]
    refine hold₁.touches h₂.touches fun b hb hor => ?_
    have hword : Within (q.push (q.reg "esi")).sp 4 b := hb
    rcases hor with hbuf | hin
    · rw [hsp₁] at hword
      exact hapart b hbuf ((hword.below le_rfl).mono (by decide))
    · exact hword.not_below (m := 8) (by decide) hin
  have h₃ := (h₁.trans (h₂.mono (turnRegs_subset _) fun b hb => hb.imp_right (hbelow b))).mov
    (d := "eax") (x := 4) (by decide) rfl (by decide)
  have h₄ := h₃.mov (d := "ebx") (x := 1) (by decide) rfl (by decide)
  have h₅ := h₄.pop (r := "ecx") (by decide) (by decide) (by decide)
  have h₆ := h₅.mov (d := "edx") (by decide) (value?_full (by decide)) (by decide)
  obtain ⟨f, h₇⟩ := h₆.sub (d := "edx") (by decide) (value?_full (by decide)) (by decide)
  obtain ⟨q₃, h₈, -, -, hregs₃, -⟩ := h₇.trap rfl rfl (by decide)
  have htop : q₂.top = env "float_buf" + BitVec.ofNat _ 31 - BitVec.ofNat _ n := hold₂.top.trans hplace
  have hsp₃ : q₂.sp + BitVec.ofNat _ 4 = q.sp := by
    rw [hsp₂, hsp₁]
    exact sub_add_cancel _ _
  refine ⟨q₃, h₈, (hregs₃ "esp" (by decide)).trans hsp₃, ?_⟩
  have hecx : q₃.reg "ecx" = env "float_buf" + BitVec.ofNat _ 31 - BitVec.ofNat _ n :=
    (hregs₃ "ecx" (by decide)).trans htop
  have hedx : q₃.reg "edx" = BitVec.ofNat _ (8 + n) := by
    have hdiff : q₃.reg "edx" = q₂.reg "esi" - q₂.top := hregs₃ "edx" (by decide)
    rw [hdiff, htop]
    exact (congrArg (· - _) hplace₂).trans (end_sub_start _ n)
  have hlost : PrintInt.lost .bits32 = (["ecx", "edx"] : List Text) := by decide
  rw [Left, hlost, List.forall_mem_cons, List.forall_mem_singleton]
  refine ⟨.inr (.inl ?_), .inl ⟨8 + n, by omega, by omega, hedx⟩⟩
  rw [hecx]
  exact start_within _ (by omega)

theorem finish_bits64 (env : Text → Target.bits64.Word) (q : Process .bits64) {n : Nat} (hn : n ≤ 21)
    (hplace : q.reg "rsi" = env "float_buf" + BitVec.ofNat _ 31 - BitVec.ofNat _ n) :
    ∃ q', Passage env (routine .bits64) (bodyRegs .bits64)
        (fun b => Within (env "float_buf") 64 b ∨ False)
        (afterDigits .bits64, q) (tail .bits64, q') ∧ q'.sp = q.sp ∧ Left env q q' := by
  have hstart : Passage env (routine .bits64) (bodyRegs .bits64)
    (fun b => Within (env "float_buf") 64 b ∨ False)
    (afterDigits .bits64, q) (afterDigits .bits64, q) := .refl _
  have h₁ := hstart.mov (d := "r14") (by decide) (value?_full (by decide)) (by decide)
  obtain ⟨q₂, h₂, hsp₂, -, hplace₂⟩ := fraction_passage env (routine .bits64) _
    (q.set "r14" (q.reg "rsi")) (fun _ _ h => h) (seek_frac .bits64)
  have hr14 : q₂.reg "r14" = q.reg "rsi" := h₂.touches.reg (by decide)
  have h₃ := (h₁.trans (h₂.mono (turnRegs_subset _) fun _ hb => hb)).mov (d := "rax") (x := 1)
    (by decide) rfl (by decide)
  have h₄ := h₃.mov (d := "rdi") (x := 1) (by decide) rfl (by decide)
  have h₅ := h₄.mov (d := "rdx") (by decide) (value?_full (by decide)) (by decide)
  obtain ⟨f, h₆⟩ := h₅.sub (d := "rdx") (by decide) (value?_full (by decide)) (by decide)
  have h₇ := h₆.mov (d := "rsi") (by decide) (value?_full (by decide)) (by decide)
  obtain ⟨q₃, h₈, -, -, hregs₃, hanswers⟩ := h₇.trap rfl rfl (by decide)
  refine ⟨q₃, h₈, (hregs₃ "rsp" (by decide)).trans hsp₂, ?_⟩
  have hrdx : q₃.reg "rdx" = BitVec.ofNat _ (8 + n) := by
    have hdiff : q₃.reg "rdx" = q₂.reg "rsi" - q₂.reg "r14" := hregs₃ "rdx" (by decide)
    rw [hdiff, hr14, hplace]
    exact (congrArg (· - _) hplace₂).trans (end_sub_start _ n)
  have hanswer : ∀ name, physical name ∈ Target.bits64.trapClobbers.map physical →
      ∃ k, q₃.reg name = (q.answers k).setWidth _ := by
    intro name hname
    obtain ⟨k, hk⟩ := hanswers name hname
    obtain ⟨j, hj⟩ := h₇.touches.answers k
    exact ⟨j, hk.trans (congrArg _ hj)⟩
  have hlost : PrintInt.lost .bits64 = (["rcx", "rdx", "r11"] : List Text) := by decide
  rw [Left, hlost, List.forall_mem_cons, List.forall_mem_cons, List.forall_mem_singleton]
  exact ⟨.inr (.inr (hanswer "rcx" (by decide))), .inl ⟨8 + n, by omega, by omega, hrdx⟩,
    .inr (.inr (hanswer "r11" (by decide)))⟩

theorem finish (env : Text → t.Word) (q : Process t) {n : Nat} (hn : n ≤ 21)
    (hplace : q.reg (regs t).place = env "float_buf" + BitVec.ofNat _ 31 - BitVec.ofNat _ n)
    (hapart : ∀ b, Within (env "float_buf") 64 b → ¬ bodyArea t q.sp (q.reg t.basePointer) b) :
    ∃ q', Passage env (routine t) (bodyRegs t)
        (fun b => Within (env "float_buf") 64 b ∨ bodyArea t q.sp (q.reg t.basePointer) b)
        (afterDigits t, q) (tail t, q') ∧ q'.sp = q.sp ∧ Left env q q' := by
  cases t with
  | bits16 => exact finish_bits16 env q hn hplace hapart
  | bits32 => exact finish_bits32 env q hn hplace hapart
  | bits64 => exact finish_bits64 env q hn hplace

/-! ## The routine -/

/-- The buffer is apart from the eight words below the stack pointer. -/
structure Layout (env : Text → t.Word) (p : Process t) : Prop where
  buffer : ∀ b, Within (env "float_buf") 64 b → ¬ Below p.sp (8 * t.wordSize) b

/-- The code behind the parts of the number. -/
def afterSplit (t : Target) : List Line :=
  openBuffer (regs t) "float_buf" ++ (digitLoop (regs t) ".int_loop" ++
    (signDigits (regs t) ".write_point" ++ afterDigits t))

theorem body_append (t : Target) : body t ++ tail t = splitNumber t ++ afterSplit t := by
  simp only [body, afterSplit, afterDigits, List.append_assoc]

theorem seek_int (t : Target) : seek (routine t) ".int_loop" =
    some ((digitLoop (regs t) ".int_loop").tail ++
      (signDigits (regs t) ".write_point" ++ afterDigits t)) := by
  cases t <;> rfl

theorem seek_point (t : Target) : seek (routine t) ".write_point" =
    some (Line.op .inc [.reg (regs t).place] :: afterDigits t) := by
  cases t <;> rfl

theorem split (env : Text → t.Word) (q : Process t) :
    ∃ q', Passage env (routine t) [physical "rax", physical (regs t).negative]
      (bodyArea t q.sp (q.reg t.basePointer)) (splitNumber t ++ afterSplit t, q)
      (afterSplit t, q') := by
  cases t with
  | bits16 => exact split_bits16 _ _ env q rfl rfl
  | bits32 =>
    obtain ⟨q', h⟩ := split_wide (routine .bits32) (afterSplit .bits32) (by decide) env q rfl rfl
    exact ⟨q', h.mono (List.Subset.refl _) fun _ hb => hb.elim⟩
  | bits64 => exact split_wide _ _ (by decide) env q rfl rfl

theorem regs_subset (t : Target) :
    [physical "rax", physical (regs t).negative] ⊆ bodyRegs t ∧
      [physical (regs t).place, physical (regs t).divisor] ⊆ bodyRegs t ∧
      (regs t).changed ⊆ bodyRegs t := by
  cases t <;> decide

theorem pointers_apart (t : Target) : ∀ r ∈ [t.stackPointer, t.basePointer],
    physical r ∉ [physical "rax", physical (regs t).negative] ∧
      physical r ∉ [physical (regs t).place, physical (regs t).divisor] ∧
      physical r ∉ (regs t).changed := by
  cases t <;> decide

section

variable {env : Text → t.Word} {p p₁ : Process t}

/-- What the body stores to on the stack is in the eight words. -/
theorem below_of_bodyArea {s b : t.Word}
    (hb : bodyArea t (s - BitVec.ofNat _ (Framed.depth t (saved t) (room t)))
      (s - BitVec.ofNat _ t.wordSize) b) : Below s (8 * t.wordSize) b := by
  cases t with
  | bits16 => exact (Below.sub (n := 8) (m := 2) hb).mono (by decide)
  | bits32 => exact (Below.sub (n := 12) (m := 16) hb).mono (by decide)
  | bits64 => exact hb.elim

/-- What the body stores to on the stack is apart from the words that the routine pushes. -/
theorem bodyArea_apart {s b : t.Word}
    (hb : bodyArea t (s - BitVec.ofNat _ (Framed.depth t (saved t) (room t)))
      (s - BitVec.ofNat _ t.wordSize) b) :
    ¬ Within (s - BitVec.ofNat _ (Framed.depth t (saved t) (room t)))
        ((saved t).length * t.wordSize) b ∧
      ¬ Within (s - BitVec.ofNat _ t.wordSize) t.wordSize b := by
  cases t with
  | bits16 =>
    have hlocal : Below (s - BitVec.ofNat _ 2) 8 b := hb
    refine ⟨fun hin => ?_, fun hin => hin.not_below (by decide) hlocal⟩
    -- The local words are from `s - 10` on, and the pushed ones below that.
    have habove : Within (s - BitVec.ofNat _ 10) 8 b := by
      refine Within.of_below ?_ le_rfl
      have heq : s - BitVec.ofNat _ 10 + BitVec.ofNat _ 8 = s - BitVec.ofNat _ 2 := by
        rw [BitVec.ofNat_add 2 8, ← sub_sub, sub_add_cancel]
      rw [heq]
      exact hlocal
    refine habove.not_below (m := 6) (by decide) (Within.below (n := 6) ?_ le_rfl)
    rw [sub_sub, ← BitVec.ofNat_add]
    exact hin
  | bits32 =>
    have hstack : Below (s - BitVec.ofNat _ 16) 12 b := hb
    refine ⟨fun hin => hin.not_below (by decide) hstack, fun hin => ?_⟩
    have hframe : Within (s - BitVec.ofNat _ 16) (12 + 4) b := by
      refine Within.add ?_
      rw [BitVec.ofNat_add 4 12, ← sub_sub, sub_add_cancel]
      exact hin
    exact hframe.not_below (by decide) hstack
  | bits64 => exact hb.elim

/-- The digits of the integer part come to stand before the middle of the buffer. -/
theorem digits_passage (env : Text → t.Word) (q : Process t) :
    ∃ q' n, Passage env (routine t) (bodyRegs t)
        (fun b => Within (env "float_buf") 64 b ∨ bodyArea t q.sp (q.reg t.basePointer) b)
        (body t ++ tail t, q) (afterDigits t, q') ∧ n ≤ 21 ∧
      q'.reg (regs t).place = env "float_buf" + BitVec.ofNat _ 31 - BitVec.ofNat _ n ∧
      q'.sp = q.sp ∧ q'.reg t.basePointer = q.reg t.basePointer := by
  have hr := regs_fits t
  have hsymbol : part? "float_buf" = none := by decide
  obtain ⟨hsplit, hbuffer, hdigits⟩ := regs_subset t
  obtain ⟨hsp₁, hsp₂, hsp₃⟩ := pointers_apart t t.stackPointer (by simp)
  obtain ⟨hbp₁, hbp₂, hbp₃⟩ := pointers_apart t t.basePointer (by simp)
  rw [body_append]
  obtain ⟨q₁, h₁⟩ := split env q
  obtain ⟨q₂, h₂, hplace₂, hten₂, -⟩ := openBuffer_passage env (routine t) _ q₁ hr hsymbol
  obtain ⟨q₃, h₃, hplace₃, -, -⟩ := decimal_passage env (routine t) _ q₂ hr hten₂ (seek_int t)
    (seek_point t) rfl
  have hshort := length_minus_append (q₂.reg (regs t).negative ≠ 0) (q₂.reg "rax")
  generalize (Text.minus (q₂.reg (regs t).negative ≠ 0) ++ Text.ofNat (q₂.reg "rax").toNat).length = n
    at h₃ hplace₃ hshort
  rw [hplace₂] at h₃ hplace₃
  refine ⟨q₃, n, ((h₁.mono hsplit fun _ hb => .inr hb).trans
    (h₂.mono hbuffer fun b hb => .inl (hb.mono (by decide)))).label.trans
      (h₃.mono hdigits fun b hb => .inl ((Within.of_below hb (by omega)).mono (by decide))),
    hshort, hplace₃, ?_, ?_⟩
  · exact (h₃.touches.reg hsp₃).trans ((h₂.touches.reg hsp₂).trans (h₁.touches.reg hsp₁))
  · exact (h₃.touches.reg hbp₃).trans ((h₂.touches.reg hbp₂).trans (h₁.touches.reg hbp₁))

theorem body_passage (h : Layout env p) (hent : Framed.Entered p p₁ (saved t) (room t)) :
    ∃ q, Passage env (routine t) (bodyRegs t)
        (fun b => Within (env "float_buf") 64 b ∨
          bodyArea t (p.sp - BitVec.ofNat _ (Framed.depth t (saved t) (room t)))
            (p.sp - BitVec.ofNat _ t.wordSize) b)
        (body t ++ tail t, p₁) (tail t, q) ∧ q.sp = p₁.sp ∧ Left env p q := by
  obtain ⟨q₁, n, h₁, hn, hplace₁, hsp₁, hbp₁⟩ := digits_passage env p₁
  rw [hent.sp, hent.base] at h₁
  rw [hent.base] at hbp₁
  have hstack : q₁.sp = p.sp - BitVec.ofNat _ (Framed.depth t (saved t) (room t)) :=
    hsp₁.trans hent.sp
  obtain ⟨q₂, h₂, hsp₂, hleft⟩ := finish env q₁ hn hplace₁ fun b hb hin => by
    rw [hstack, hbp₁] at hin
    exact h.buffer b hb (below_of_bodyArea hin)
  rw [hstack, hbp₁] at h₂
  refine ⟨q₂, h₁.trans h₂, hsp₂.trans hsp₁, fun r hr => ?_⟩
  refine (hleft r hr).imp_right fun h => h.imp_right ?_
  rintro ⟨k, hk⟩
  obtain ⟨i, hi⟩ := h₁.touches.answers k
  obtain ⟨j, hj⟩ := hent.touches.answers i
  exact ⟨j, by rw [hk, hi, hj]⟩

theorem lost_apart (t : Target) : ∀ r ∈ PrintInt.lost t, physical r ∉ (saved t).map physical ∧
    physical r ≠ physical t.stackPointer ∧ physical r ≠ physical t.basePointer := by
  cases t <;> decide

/-- The run of the routine, whatever the answers are. -/
theorem returns (h : Layout env p) :
    ∃ q, Returns env (routine t) p q ∧
      Touches (PrintInt.scratch t)
        (fun b => Within (env "float_buf") 64 b ∨ Below p.sp (8 * t.wordSize) b) p q ∧
      Left env p q := by
  have hdepth : Framed.depth t (saved t) (room t) ≤ 8 * t.wordSize := by cases t <;> decide
  have hsaved : (saved t).length * t.wordSize ≤ Framed.depth t (saved t) (room t) := by
    cases t <;> decide
  have hbase : physical t.basePointer ∉ bodyRegs t := by cases t <;> decide
  have hscratch : ∀ name ∈ bodyRegs t, name ∈ PrintInt.scratch t ∨
      name = physical t.stackPointer ∨ name ∈ (saved t).map physical := by
    intro name hname
    rcases List.mem_cons.mp hname with hsp | hname
    · exact .inr (.inl hsp)
    · exact (List.mem_append.mp hname).imp_right .inr
  have hapart : ∀ b, (Within (env "float_buf") 64 b ∨
      bodyArea t (p.sp - BitVec.ofNat _ (Framed.depth t (saved t) (room t)))
        (p.sp - BitVec.ofNat _ t.wordSize) b) →
      ¬ Within (p.sp - BitVec.ofNat _ (Framed.depth t (saved t) (room t)))
          ((saved t).length * t.wordSize) b ∧
        ¬ Within (p.sp - BitVec.ofNat _ t.wordSize) t.wordSize b := by
    rintro b (hb | hb)
    · exact ⟨fun hin => h.buffer b hb ((hin.below hsaved).mono hdepth),
        fun hin => h.buffer b hb ((hin.below le_rfl).mono (by omega))⟩
    · exact bodyArea_apart hb
  obtain ⟨q₁, q, hleft, -, hret, htouches, hregs⟩ := (framed env).returns p hapart hscratch hbase
    fun p₁ hent => body_passage h hent
  refine ⟨q, hret, htouches.mono (List.Subset.refl _) fun b hb => ?_, fun r hr => ?_⟩
  · rcases hb with (hb | hb) | hb
    · exact .inl hb
    · exact .inr (below_of_bodyArea hb)
    · exact .inr (hb.mono hdepth)
  · obtain ⟨hnot, hsp, hbp⟩ := lost_apart t r hr
    have hkept : q.reg r = q₁.reg r := hregs _ hnot hsp hbp
    rw [hkept]
    exact hleft r hr

end

end Assembly.Routine.PrintFloat
