import Assembly.Proofs.Routine.Stack

/-!
# Decimal digits in a buffer

The conversion to decimal that the printing routines share.  One turn of its loop divides by ten
and stores a digit in front of those that are there already.  So when the loop ends, the text of
the number ends where the place was at its start, and a minus sign goes in front of it.

All regions are counted down from the byte behind the last digit.
-/

namespace Assembly

open Process Routine

/-! ## Texts of numbers -/

namespace Text

/-- The last digit of a number. -/
def digit (n : Nat) : UInt8 := .ofBitVec (BitVec.ofNat 8 (n % 10) + BitVec.ofNat 8 48)

theorem byte_digitChar : ∀ n < 10, byte (Nat.digitChar n) = digit n := by
  decide

theorem ofNat_of_lt {n : Nat} (h : n < 10) : ofNat n = [digit n] := by
  rw [ofNat, Nat.toDigits_of_lt_base h, List.map_singleton, byte_digitChar n h]

theorem ofNat_of_le {n : Nat} (h : 10 ≤ n) : ofNat n = ofNat (n / 10) ++ [digit n] := by
  have hdigit : digit (n % 10) = digit n := by rw [digit, digit, Nat.mod_mod]
  rw [ofNat, Nat.toDigits_of_base_le (by decide) h, List.map_append, List.map_singleton,
    byte_digitChar _ (Nat.mod_lt n (by decide)), hdigit]
  rfl

theorem length_ofNat_le {n : Nat} (h : n < 2 ^ 64) : (ofNat n).length ≤ 20 := by
  rw [ofNat, List.length_map, Nat.length_toDigits_le_iff (by decide) (by decide)]
  omega

/-- The sign in front of a number. -/
def minus (negative : Bool) : Text := if negative then [45] else []

theorem length_minus_le (negative : Bool) : (minus negative).length ≤ 1 := by
  cases negative <;> decide

theorem ofInt_eq (k : Int) : ofInt k = minus (k < 0) ++ ofNat k.natAbs := by
  cases k with
  | ofNat n =>
    have hpos : ¬ Int.ofNat n < 0 := Int.not_lt.mpr (Int.natCast_nonneg n)
    rw [decide_eq_false hpos]
    rfl
  | negSucc n =>
    rw [decide_eq_true (Int.negSucc_lt_zero n)]
    rfl

end Text

theorem Below.sub {w n m : Nat} {a b : BitVec w} (h : Below (a - BitVec.ofNat w m) n b) :
    Below a (m + n) b := by
  obtain ⟨k, hk, rfl⟩ := h
  exact ⟨m + k, by omega, by rw [Nat.add_assoc, BitVec.ofNat_add m, sub_sub]⟩

namespace Routine.DigitRegs

/-- What the conversion of a number changes. -/
def changed (r : DigitRegs) : List Text := [physical "rax", physical "rdx", physical r.place]

/-- The registers of a conversion are full ones, the division finds the number where it looks for
it, and no register has two roles. -/
structure Fits (t : Target) (r : DigitRegs) : Prop where
  number : physical r.number = physical "rax"
  remainder : physical r.remainder = physical "rdx"
  full : ∀ d ∈ [r.number, r.place, r.divisor, r.negative, r.remainder],
    t.view? d = some ⟨0, t.wordSize⟩
  place : physical r.place ≠ physical "rax" ∧ physical r.place ≠ physical "rdx"
  divisor : physical r.divisor ∉ r.changed
  negative : physical r.negative ∉ physical r.divisor :: r.changed

/-- The roles that blocks of a routine keep apart. -/
theorem Fits.apart {t : Target} {r : DigitRegs} (h : r.Fits t) :
    physical "rax" ∉ [physical r.place, physical r.divisor] ∧
      physical r.place ∉ [physical "rax", physical r.negative] ∧
      physical r.divisor ∉ [physical "rax", physical r.negative] := by
  have hplace := h.place
  have hdivisor := h.divisor
  have hnegative := h.negative
  simp only [changed, List.mem_cons, List.not_mem_nil, or_false, not_or] at hdivisor hnegative ⊢
  exact ⟨⟨Ne.symm hplace.1, Ne.symm hdivisor.1⟩, ⟨hplace.1, Ne.symm hnegative.2.2.2⟩,
    hdivisor.1, Ne.symm hnegative.1⟩

end Routine.DigitRegs

theorem Routine.PrintInt.regs_fits (t : Target) : (PrintInt.regs t).Fits t := by
  cases t <;> exact ⟨by decide, by decide, by decide, by decide, by decide, by decide⟩

variable {t : Target} {r : DigitRegs}

theorem length_ofNat_toNat (x : t.Word) : (Text.ofNat x.toNat).length ≤ 20 := by
  refine Text.length_ofNat_le (x.isLt.trans_le (Nat.pow_le_pow_right (by decide) ?_))
  cases t <;> decide

theorem length_minus_append (negative : Bool) (x : t.Word) :
    (Text.minus negative ++ Text.ofNat x.toNat).length ≤ 21 := by
  have hsign := Text.length_minus_le negative
  have hdigits := length_ofNat_toNat x
  rw [List.length_append]
  omega

theorem Target.buffer_le (t : Target) : 64 ≤ 2 ^ (8 * t.wordSize) := by
  cases t <;> decide

theorem view?_dl (t : Target) : t.view? "dl" = some ⟨0, 1⟩ := by
  cases t <;> decide

/-! ## The loop -/

section

variable (env : Text → t.Word) (code rest : List Line) (q : Process t)

theorem divideByTen_passage (hr : r.Fits t) (hten : q.reg r.divisor = 10) :
    ∃ q', Passage env code r.changed (fun _ => False)
        ([Line.op .xor [.reg r.remainder, .reg r.remainder], .op .div [.reg r.divisor]] ++ rest, q)
        (rest, q') ∧
      q'.reg "rax" = BitVec.ofNat _ ((q.reg "rax").toNat / 10) ∧
      q'.reg "rdx" = BitVec.ofNat _ ((q.reg "rax").toNat % 10) ∧
      q'.reg r.place = q.reg r.place ∧ q'.mem = q.mem ∧ q'.output = q.output := by
  have hnat : (q.reg r.divisor).toNat = 10 := by
    rw [hten]
    cases t <;> rfl
  have hrdx : physical r.remainder ∈ r.changed := by simp [DigitRegs.changed, hr.remainder]
  have hdivisor : physical r.divisor ≠ physical r.remainder :=
    fun heq => hr.divisor (heq ▸ hrdx)
  have hnumber : physical "rax" ≠ physical r.remainder := by
    rw [hr.remainder]
    decide
  have hplace : physical r.place ≠ physical r.remainder := by
    rw [hr.remainder]
    exact hr.place.2
  have hstart : Passage env code r.changed (fun _ => False)
      ([Line.op .xor [.reg r.remainder, .reg r.remainder], .op .div [.reg r.divisor]] ++ rest, q)
      ([Line.op .xor [.reg r.remainder, .reg r.remainder], .op .div [.reg r.divisor]] ++ rest, q) :=
    .refl _
  obtain ⟨f, hxor⟩ := hstart.xorSelf (hr.full _ (by simp)) hrdx
  have hupper : ((q.set r.remainder 0).withFlags f).reg "rdx" = 0 := by
    rw [reg_withFlags, reg_set, if_pos hr.remainder.symm]
  have hkept : ((q.set r.remainder 0).withFlags f).reg r.divisor = q.reg r.divisor :=
    reg_set_of_ne _ _ hdivisor
  have hdividend : ((q.set r.remainder 0).withFlags f).reg "rax" = q.reg "rax" :=
    reg_set_of_ne _ _ hnumber
  have hzero : ((q.set r.remainder 0).withFlags f).reg r.divisor ≠ 0 := by
    intro hbad
    rw [hkept] at hbad
    simp [hbad] at hnat
  have hdiv := hxor.div (hr.full _ (by simp)) hupper hzero List.mem_cons_self
    (List.mem_cons_of_mem _ List.mem_cons_self)
  rw [hkept, hdividend, hnat] at hdiv
  refine ⟨_, hdiv, ?_, ?_, ?_, rfl, rfl⟩
  · rw [reg_withFlags, reg_set_of_ne _ _ (by decide), reg_set_self]
  · rw [reg_withFlags, reg_set_self]
  · rw [reg_withFlags, reg_set_of_ne _ _ hr.place.2, reg_set_of_ne _ _ hr.place.1]
    exact reg_set_of_ne _ _ hplace

/-- The last byte of the remainder becomes a digit, and goes to the place. -/
theorem storeDigit_passage (hr : r.Fits t) {n : Nat} (hn : q.reg "rdx" = BitVec.ofNat _ (n % 10)) :
    ∃ q', Passage env code r.changed (Below (q.reg r.place + 1) 1)
        ([Line.op .add [.reg "dl", .char 48], .op .mov [.direct r.place, .reg "dl"],
          .op .dec [.reg r.place]] ++ rest, q) (rest, q') ∧
      q'.reg "rax" = q.reg "rax" ∧ q'.reg r.place = q.reg r.place - 1 ∧
      q'.mem (q.reg r.place) = (Text.digit n).toBitVec ∧ q'.output = q.output := by
  have hdl : physical "dl" = physical "rdx" := by decide
  have hrdx : physical "dl" ∈ r.changed := by simp [DigitRegs.changed, hdl]
  have hplace : physical r.place ≠ physical "dl" := hdl ▸ hr.place.2
  have hview : t.view? r.place = some ⟨0, t.wordSize⟩ := hr.full _ (by simp)
  have hstart : Passage env code r.changed (Below (q.reg r.place + 1) 1)
      ([Line.op .add [.reg "dl", .char 48], .op .mov [.direct r.place, .reg "dl"],
        .op .dec [.reg r.place]] ++ rest, q)
      ([Line.op .add [.reg "dl", .char 48], .op .mov [.direct r.place, .reg "dl"],
        .op .dec [.reg r.place]] ++ rest, q) := .refl _
  obtain ⟨f, hadd⟩ := hstart.addPart (view?_dl t) rfl hrdx
  generalize hq : (q.put "dl" ⟨0, 1⟩ _).withFlags f = q₁ at hadd
  have hplace₁ : q₁.reg r.place = q.reg r.place := by
    rw [← hq]
    exact reg_set_of_ne _ _ hplace
  have hdl₁ : (q₁.reg "dl").extractLsb' 0 8 = (Text.digit n).toBitVec := by
    have hword : 0 + 1 ≤ t.wordSize := by cases t <;> decide
    have hlow : (q.reg "dl").extractLsb' 0 8 = BitVec.ofNat 8 (n % 10) := by
      have hsame : q.reg "dl" = q.reg "rdx" := congrArg q.cpu.regs hdl
      have hsmall : n % 10 < 2 ^ (8 * t.wordSize) := by
        refine (Nat.mod_lt n (by decide)).trans ?_
        cases t <;> decide
      rw [hsame, hn]
      refine BitVec.eq_of_toNat_eq ?_
      simp [Nat.mod_eq_of_lt hsmall]
    rw [← hq, reg_withFlags, reg_put_self]
    refine (extract_replace ⟨0, 1⟩ hword (by decide) _ _).trans ?_
    rw [Text.digit]
    exact congrArg (· + _) hlow
  have hstore := hadd.storeReg (Cpu.base?_full env q₁.cpu hview) (view?_dl t) fun b hb => by
    have hback : q.reg r.place + 1 - BitVec.ofNat _ 1 = q₁.reg r.place := by
      rw [hplace₁]
      exact add_sub_cancel_right _ _
    exact Within.below (hback ▸ hb) le_rfl
  obtain ⟨g, hdec⟩ := hstore.dec hview (by simp [DigitRegs.changed])
  refine ⟨_, hdec, ?_, ?_, ?_, ?_⟩
  · rw [reg_withFlags, reg_set_of_ne _ _ hr.place.1.symm, reg_store, ← hq]
    exact reg_set_of_ne _ _ (by decide)
  · rw [reg_withFlags, reg_set_self, reg_store, hplace₁]
  · rw [mem_withFlags, mem_set, mem_store, ← hplace₁]
    exact (Memory.write_self _ _ _).trans hdl₁
  · rw [← hq]
    rfl

/-- One turn stores the last digit and goes on with the others. -/
theorem digit_passage (hr : r.Fits t) (hten : q.reg r.divisor = 10) {label : Text}
    (hseek : seek code label = some ((digitLoop r label).tail ++ rest)) :
    ∃ q', Passage env code r.changed (Below (q.reg r.place + 1) 1)
        ((digitLoop r label).tail ++ rest, q)
        (if (q.reg "rax").toNat / 10 = 0 then rest else (digitLoop r label).tail ++ rest, q') ∧
      (q'.reg "rax").toNat = (q.reg "rax").toNat / 10 ∧ q'.reg r.place = q.reg r.place - 1 ∧
      q'.mem (q.reg r.place) = (Text.digit (q.reg "rax").toNat).toBitVec ∧
      q'.output = q.output := by
  obtain ⟨n, hn⟩ : ∃ n, (q.reg "rax").toNat = n := ⟨_, rfl⟩
  rw [hn]
  have hlt : n / 10 < 2 ^ (8 * t.wordSize) :=
    (Nat.div_le_self n 10).trans_lt (hn ▸ (q.reg "rax").isLt)
  obtain ⟨q₁, h₁, hrax₁, hrdx₁, hplace₁, -, hout₁⟩ :=
    divideByTen_passage env code ((digitLoop r label).drop 3 ++ rest) q hr hten
  rw [hn] at hrax₁ hrdx₁
  obtain ⟨q₂, h₂, hrax₂, hplace₂, hmem₂, hout₂⟩ :=
    storeDigit_passage env code ((digitLoop r label).drop 6 ++ rest) q₁ hr hrdx₁
  rw [hplace₁] at h₂ hplace₂ hmem₂
  have hrax : (q₂.reg "rax").toNat = n / 10 := by
    rw [hrax₂, hrax₁, BitVec.toNat_ofNat, Nat.mod_eq_of_lt hlt]
  have hnumber : q₂.reg r.number = q₂.reg "rax" := congrArg q₂.cpu.regs hr.number
  have htest := ((h₁.mono (List.Subset.refl _) fun _ hb => hb.elim).trans h₂).testSelf
    (hr.full _ (by simp))
  have hjump := htest.jumpIf (!decide (q₂.reg r.number = 0)) rfl hseek
  have hzero : q₂.reg r.number = 0 ↔ n / 10 = 0 := by
    rw [hnumber, ← hrax, ← BitVec.toNat_inj]
    simp
  refine ⟨q₂.withFlags (.ofResult (q₂.reg r.number) (some false)), ?_, hrax, hplace₂, hmem₂,
    hout₂.trans hout₁⟩
  by_cases hlast : n / 10 = 0
  · rw [decide_eq_true (hzero.mpr hlast)] at hjump
    rw [if_pos hlast]
    exact hjump
  · rw [decide_eq_false fun h => hlast (hzero.mp h)] at hjump
    rw [if_neg hlast]
    exact hjump

/-- The loop leaves the text of the number in front of where the place was. -/
theorem digitLoop_passage (hr : r.Fits t) (hten : q.reg r.divisor = 10) {label : Text}
    (hseek : seek code label = some ((digitLoop r label).tail ++ rest)) {text : Text}
    (htext : text = Text.ofNat (q.reg "rax").toNat) :
    ∃ q', Passage env code r.changed (Below (q.reg r.place + 1) text.length)
        ((digitLoop r label).tail ++ rest, q) (rest, q') ∧
      q'.reg r.place = q.reg r.place - BitVec.ofNat _ text.length ∧
      q'.mem.text (q'.reg r.place + 1) text.length = text ∧ q'.output = q.output := by
  obtain ⟨n, hn⟩ : ∃ n, (q.reg "rax").toNat = n := ⟨_, rfl⟩
  rw [hn] at htext
  induction n using Nat.strongRecOn generalizing q text with
  | ind n ih =>
    obtain ⟨q₁, h₁, hrax₁, hplace₁, hmem₁, hout₁⟩ := digit_passage env code rest q hr hten hseek
    rw [hn] at h₁ hrax₁ hmem₁
    have hbyte : q₁.mem.text (q.reg r.place) 1 = [Text.digit n] := by
      rw [Memory.text_one, hmem₁, UInt8.ofBitVec_toBitVec]
    by_cases hlast : n / 10 = 0
    · rw [if_pos hlast] at h₁
      rw [Text.ofNat_of_lt (by omega)] at htext
      subst htext
      refine ⟨q₁, h₁, hplace₁, ?_, hout₁⟩
      rw [hplace₁, sub_add_cancel]
      exact hbyte
    · rw [if_neg hlast] at h₁
      rw [Text.ofNat_of_le (by omega)] at htext
      have hten₁ : q₁.reg r.divisor = 10 := (h₁.touches.reg hr.divisor).trans hten
      obtain ⟨q₂, h₂, hplace₂, htext₂, hout₂⟩ := ih (n / 10) (by omega) q₁ hten₁ rfl hrax₁
      have hfront : q₁.reg r.place + 1 = q.reg r.place := by rw [hplace₁, sub_add_cancel]
      rw [hfront] at h₂
      have hroom : 1 + (Text.ofNat (n / 10)).length ≤ 2 ^ (8 * t.wordSize) := by
        have hlen := length_ofNat_toNat (q₁.reg "rax")
        have hbuffer := t.buffer_le
        rw [hrax₁] at hlen
        omega
      have hlen : text.length = 1 + (Text.ofNat (n / 10)).length := by
        rw [htext, List.length_append, List.length_singleton, Nat.add_comm]
      have hback : q.reg r.place + 1 - BitVec.ofNat _ 1 = q.reg r.place := add_sub_cancel_right _ _
      refine ⟨q₂, (h₁.mono (List.Subset.refl _) fun b hb => hb.mono (by omega)).trans
        (h₂.mono (List.Subset.refl _) fun b hb => ?_), ?_, ?_, hout₂.trans hout₁⟩
      · rw [hlen]
        exact Below.sub (hback.symm ▸ hb)
      · rw [hplace₂, hplace₁, hlen, BitVec.ofNat_add, sub_sub]
        rfl
      · have hend : q₂.reg r.place + 1 + BitVec.ofNat _ (Text.ofNat (n / 10)).length =
            q.reg r.place := by
          rw [hplace₂, add_right_comm, sub_add_cancel, hfront]
        -- The turns after the first are in front of its digit.
        have hkept : q₂.mem.text (q.reg r.place) 1 = q₁.mem.text (q.reg r.place) 1 :=
          Memory.text_congr fun b hb => h₂.touches.mem b (hb.not_below hroom)
        rw [hlen, Nat.add_comm, Memory.text_append, htext₂, hend, hkept, hbyte, htext]

/-! ## The sign -/

/-- A minus sign goes in front, or nothing; then the place is at the first character. -/
theorem signDigits_passage (hr : r.Fits t) {label : Text}
    (hseek : seek code label = some (Line.op .inc [.reg r.place] :: rest)) {sign : Text}
    (hsign : sign = Text.minus (q.reg r.negative ≠ 0)) :
    ∃ q', Passage env code r.changed (Below (q.reg r.place + 1) sign.length)
        (signDigits r label ++ rest, q) (rest, q') ∧
      q'.reg r.place = q.reg r.place + 1 - BitVec.ofNat _ sign.length ∧
      q'.mem.text (q'.reg r.place) sign.length = sign ∧ q'.output = q.output := by
  have hview : t.view? r.place = some ⟨0, t.wordSize⟩ := hr.full _ (by simp)
  have hplace : physical r.place ∈ r.changed := by simp [DigitRegs.changed]
  have hstart : Passage env code r.changed (Below (q.reg r.place + 1) sign.length)
    (signDigits r label ++ rest, q) (signDigits r label ++ rest, q) := .refl _
  have htest := hstart.testSelf (hr.full _ (by simp))
  have hjump := htest.jumpIf (q.reg r.negative = 0) rfl hseek
  by_cases hzero : q.reg r.negative = 0
  · have hnone : sign = [] := by
      rw [hsign, decide_eq_false (not_not.mpr hzero)]
      rfl
    rw [decide_eq_true hzero, if_pos rfl] at hjump
    obtain ⟨f, hinc⟩ := hjump.inc hview hplace
    refine ⟨_, hinc, ?_, ?_, rfl⟩
    · rw [reg_withFlags, reg_set_self, hnone]
      exact (sub_zero _).symm
    · rw [hnone]
      rfl
  · have hminus : sign = [45] := by
      rw [hsign, decide_eq_true hzero]
      rfl
    have hback : q.reg r.place + 1 - BitVec.ofNat _ 1 = q.reg r.place := add_sub_cancel_right _ _
    rw [decide_eq_false hzero, if_neg Bool.false_ne_true] at hjump
    have hstore := hjump.storeSized (Cpu.base?_full env _ hview) rfl fun b hb => by
      rw [hminus]
      exact Within.below (hback.symm ▸ hb) le_rfl
    obtain ⟨f, hdec⟩ := hstore.dec hview hplace
    obtain ⟨g, hinc⟩ := hdec.label.inc hview hplace
    have hfinal : q.reg r.place - 1 + 1 = q.reg r.place := sub_add_cancel _ _
    refine ⟨_, hinc, ?_, ?_, rfl⟩
    · rw [reg_withFlags, reg_set_self, reg_withFlags, reg_set_self, hminus]
      exact hfinal.trans hback.symm
    · have hbyte : (q.mem.write (q.reg r.place) 1 45).text (q.reg r.place) 1 = [45] := by
        rw [Memory.text_one, Memory.write_self]
        rfl
      rw [reg_withFlags, reg_set_self, reg_withFlags, reg_set_self, hminus]
      exact (congrArg (Memory.text _ · 1) hfinal).trans hbyte

/-- The text of the number with its sign ends where the place was. -/
theorem decimal_passage (hr : r.Fits t) (hten : q.reg r.divisor = 10) {label label' : Text}
    (hseek : seek code label = some ((digitLoop r label).tail ++ (signDigits r label' ++ rest)))
    (hseek' : seek code label' = some (Line.op .inc [.reg r.place] :: rest)) {text : Text}
    (htext : text = Text.minus (q.reg r.negative ≠ 0) ++ Text.ofNat (q.reg "rax").toNat) :
    ∃ q', Passage env code r.changed (Below (q.reg r.place + 1) text.length)
        ((digitLoop r label).tail ++ (signDigits r label' ++ rest), q) (rest, q') ∧
      q'.reg r.place = q.reg r.place + 1 - BitVec.ofNat _ text.length ∧
      q'.mem.text (q'.reg r.place) text.length = text ∧ q'.output = q.output := by
  obtain ⟨q₁, h₁, hplace₁, htext₁, hout₁⟩ :=
    digitLoop_passage env code (signDigits r label' ++ rest) q hr hten hseek rfl
  have hsign : q₁.reg r.negative = q.reg r.negative :=
    h₁.touches.reg fun hin => hr.negative (List.mem_cons_of_mem _ hin)
  obtain ⟨q₂, h₂, hplace₂, htext₂, hout₂⟩ := signDigits_passage env code rest q₁ hr hseek' rfl
  rw [hsign] at h₂ hplace₂ htext₂
  have hshort : text.length ≤ 21 := by
    rw [htext]
    exact length_minus_append _ _
  generalize Text.minus (q.reg r.negative ≠ 0) = sign at htext h₂ hplace₂ htext₂
  generalize hdigits : Text.ofNat (q.reg "rax").toNat = digits at htext h₁ hplace₁ htext₁
  have hlen : text.length = digits.length + sign.length := by
    rw [htext, List.length_append, Nat.add_comm]
  have hfront : q₁.reg r.place + 1 = q.reg r.place + 1 - BitVec.ofNat _ digits.length := by
    rw [hplace₁]
    exact sub_add_eq_add_sub _ _ _
  refine ⟨q₂, (h₁.mono (List.Subset.refl _) fun b hb => hb.mono (by omega)).trans
    (h₂.mono (List.Subset.refl _) fun b hb => ?_), ?_, ?_, hout₂.trans hout₁⟩
  · rw [hlen]
    exact Below.sub (hfront ▸ hb)
  · rw [hplace₂, hfront, hlen, BitVec.ofNat_add, sub_sub]
  · have hroom : digits.length + sign.length ≤ 2 ^ (8 * t.wordSize) := by
      have hbuffer := t.buffer_le
      omega
    have hend : q₂.reg r.place + BitVec.ofNat _ sign.length = q₁.reg r.place + 1 := by
      rw [hplace₂, sub_add_cancel]
    have hkept : q₂.mem.text (q₁.reg r.place + 1) digits.length =
        q₁.mem.text (q₁.reg r.place + 1) digits.length :=
      Memory.text_congr fun b hb => h₂.touches.mem b (hb.not_below hroom)
    rw [hlen, Nat.add_comm, Memory.text_append, htext₂, hend, hkept, htext₁, htext]

/-! ## The buffer -/

theorem openBuffer_passage (hr : r.Fits t) {buffer : Text} (hbuffer : part? buffer = none) :
    ∃ q', Passage env code [physical r.place, physical r.divisor] (Within (env buffer) 32)
        (openBuffer r buffer ++ rest, q) (rest, q') ∧
      q'.reg r.place + 1 = env buffer + BitVec.ofNat _ 31 ∧ q'.reg r.divisor = 10 ∧
      q'.output = q.output := by
  have hplace : t.view? r.place = some ⟨0, t.wordSize⟩ := hr.full _ (by simp)
  have hstart : Passage env code [physical r.place, physical r.divisor] (Within (env buffer) 32)
    (openBuffer r buffer ++ rest, q) (openBuffer r buffer ++ rest, q) := .refl _
  have haddr : q.cpu.address? env (.above buffer 31) = some (env buffer + BitVec.ofNat _ 31) := by
    rw [Cpu.address?, Cpu.base?_symbol env q.cpu hbuffer]
    rfl
  have hlea := hstart.lea hplace haddr List.mem_cons_self
  have hstore := hlea.storeSized (Cpu.base?_full env _ hplace) rfl fun b hb => by
    have hlast : Within (env buffer + BitVec.ofNat _ 31) 1 b := by
      rw [← reg_set_self q r.place (env buffer + BitVec.ofNat _ 31)]
      exact hb
    exact hlast.add
  obtain ⟨f, hdec⟩ := hstore.dec hplace List.mem_cons_self
  have hmov := hdec.mov (hr.full r.divisor (by simp)) rfl (by simp)
  have hne : physical r.place ≠ physical r.divisor := by
    intro heq
    refine hr.divisor ?_
    simp [DigitRegs.changed, heq]
  refine ⟨_, hmov, ?_, reg_set_self _ _ _, rfl⟩
  rw [reg_set_of_ne _ _ hne, reg_withFlags, reg_set_self, reg_store, reg_set_self, sub_add_cancel]

end

end Assembly
