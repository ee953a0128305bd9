import Assembly.Proofs.Call.Agreement
import Assembly.Proofs.Cast.Code
import Assembly.Proofs.Print.Code

/-!
# Casts between integers

A cast emits one move.  Run on a machine, it leaves the signed value of its source in as many low
bytes of the new register as the type has; what is above them is not determined.  A print of the
register extends the sign of these bytes, so that what it pushes does not depend on the rest.  A
move of a byte that has no name is no instruction at all.
-/

namespace Assembly

open Emit

/-- An integer that code can read: a register of the pool, memory at a full register or at a
symbol, or a number that was spelled as an integer. -/
inductive Value.Readable (t : Target) (v : Value) : Prop
  | register (hkind : v.isRegister = true) (hpool : v.name ∈ t.intPool)
  | memory (hkind : v.isMemory = true)
    (hbase : part? v.place.base ≠ none → t.view? v.place.base = some ⟨0, t.wordSize⟩)
  | number {x : Int} (hkind : v.kind = .number) (hx : Text.toInt64? v.text = some x)

namespace Value.Readable

variable {t : Target} {v : Value}

theorem mem_intPool (h : v.Readable t) (hreg : v.isRegister = true) : v.name ∈ t.intPool := by
  cases h with
  | register _ hpool => exact hpool
  | memory hkind => exact absurd hreg (Cpu.not_isRegister_of_isMemory hkind)
  | number hkind => exact absurd hkind (Cpu.kind_ne_number_of_isRegister hreg)

theorem withType (h : v.Readable t) (type : Text) : (v.withType type).Readable t := by
  cases h with
  | register hkind hpool => exact .register hkind hpool
  | memory hkind hbase => exact .memory hkind hbase
  | number hkind hx => exact .number hkind hx

end Value.Readable

/-- The target names the bytes that a cast from `v` to `a` moves: those of the result, and as many
of a register as the narrower of the two types has. -/
def Value.Movable (t : Target) (v a : Value) : Prop :=
  ¬ a.Nameless t ∧
  ¬ (v.isRegister = true ∧ v.name ∈ t.byteless ∧ min (t.typeSize v.type) (t.typeSize a.type) = 1)

instance (t : Target) (v a : Value) : Decidable (v.Movable t a) :=
  inferInstanceAs (Decidable (_ ∧ ¬ (_ ∧ _ ∧ _)))

namespace Cpu

variable {t : Target} {env : Text → t.Word} {c : Cpu t} {v : Value} {r type : Text} {n : Nat}
  {s : Operand}

/-- The number that a value has: a literal is what it spells, other values are the signed number
in their bytes. -/
def signed? (env : Text → t.Word) (c : Cpu t) (v : Value) : Option Int :=
  if v.kind = .number then Text.toInt64? v.text else (c.low? env v).map BitVec.toInt

/-! ## Bytes -/

theorem setWidth_ofInt {n m : Nat} (h : n ≤ m) (k : Int) :
    (BitVec.ofInt m k).setWidth n = BitVec.ofInt n k := by
  have hdvd : 2 ^ n ∣ 2 ^ m := Nat.pow_dvd_pow 2 h
  refine BitVec.eq_of_toInt_eq ?_
  rw [← BitVec.signExtend_eq_setWidth_of_le _ h, BitVec.signExtend, BitVec.toInt_ofInt,
    BitVec.toInt_ofInt, BitVec.toInt_ofInt, Int.bmod_bmod_of_dvd hdvd]

theorem set_congr {a b : Text} (h : physical a = physical b) (c : Cpu t) (x : t.Word) :
    c.set a x = c.set b x := by
  rw [set, set, h]

theorem setWidth_replace (hle : n ≤ t.wordSize) (old : t.Word) (x : BitVec (8 * n)) :
    ((⟨0, n⟩ : Part).replace old x).setWidth (8 * n) = x := by
  refine BitVec.eq_of_getLsbD_eq fun j hj => ?_
  have hjw : j < 8 * t.wordSize := by omega
  rw [Part.replace]
  split
  · simp [hj, hjw]
  · simp [hj, hjw]

theorem exec_mov_low (hr : r ∈ t.intPool) (hsize : n = 1 ∨ n = 2 ∨ n = 4 ∨ n = 8)
    (hle : n ≤ t.wordSize) (hnamed : ¬ (n = 1 ∧ r ∈ t.byteless)) {x : BitVec (8 * n)}
    (hx : c.value? env n s = some x) :
    ∃ w, c.exec env ⟨.mov, [.reg (t.resize r n), s]⟩ = some (c.set r w) ∧ w.setWidth (8 * n) = x := by
  have hview := t.view?_resize hr hsize hle hnamed
  refine ⟨_, ?_, setWidth_replace hle (c.reg (t.resize r n)) x⟩
  simp only [exec, hview, Option.bind_some, hx, Option.map_some, put]
  rw [set_congr (t.physical_resize r n)]

theorem value?_resize (hr : r ∈ t.intPool) (hsize : n = 1 ∨ n = 2 ∨ n = 4 ∨ n = 8)
    (hle : n ≤ t.wordSize) (hnamed : ¬ (n = 1 ∧ r ∈ t.byteless)) :
    c.value? env n (.reg (t.resize r n)) = some ((c.reg r).setWidth (8 * n)) := by
  have hvalue : c.value? env _ _ = _ := value?_reg (t.view?_resize hr hsize hle hnamed)
  rw [hvalue, BitVec.setWidth_eq_extractLsb' (by omega), reg, t.physical_resize]
  rfl

/-! ## The move of a cast -/

theorem exists_address? (env : Text → t.Word) (c : Cpu t) {a : Address}
    (h : part? a.base ≠ none → t.view? a.base = some ⟨0, t.wordSize⟩) :
    ∃ x, c.address? env a = some x := by
  have hbase : ∃ x, c.base? env a.base = some x := by
    by_cases hp : part? a.base = none
    · exact ⟨_, base?_symbol env c hp⟩
    · exact ⟨_, base?_full env c (h hp)⟩
  obtain ⟨x, hx⟩ := hbase
  cases a <;> simp only [address?, Address.base] at hx ⊢ <;> rw [hx] <;> exact ⟨_, rfl⟩

theorem exists_signed? (env : Text → t.Word) (c : Cpu t) (hv : v.Readable t) :
    ∃ x, c.signed? env v = some x := by
  rw [signed?]
  cases hv with
  | register hkind _ =>
    rw [if_neg (kind_ne_number_of_isRegister hkind), low?_register hkind]
    exact ⟨_, rfl⟩
  | memory hkind hbase =>
    obtain ⟨a, ha⟩ := exists_address? env c hbase
    rw [if_neg (kind_ne_number_of_isMemory hkind), low?_memory hkind ha]
    exact ⟨_, rfl⟩
  | number hkind hx => exact ⟨_, (if_pos hkind).trans hx⟩

theorem signed?_typeOrWord (c : Cpu t) (v : Value) :
    c.signed? env (v.withType (t.typeOrWord v.type)) = c.signed? env v := by
  have hlow : (c.low? env (v.withType (t.typeOrWord v.type))).map BitVec.toInt =
      (c.low? env v).map BitVec.toInt := by
    simp only [low?, Value.withType]
    rw [t.typeSize_typeOrWord]
    rfl
  rw [signed?, signed?, hlow]
  rfl

theorem value?_operand {y : BitVec (8 * t.typeSize v.type)} (hkind : v.isMemory = true)
    (hy : c.low? env v = some y) (hn : n ≤ t.typeSize v.type) :
    c.value? env n v.operand = some (y.setWidth (8 * n)) := by
  rw [low?, if_neg (not_isRegister_of_isMemory hkind), if_pos hkind, Option.map_eq_some_iff] at hy
  obtain ⟨a, ha, rfl⟩ := hy
  rw [operand_of_isMemory hkind, value?, ha, Option.map_some, Memory.setWidth_read _ _ hn]

/-- The source of a move with `n` bytes, as a cast spells it, has its low bytes. -/
theorem value?_source {y : BitVec (8 * t.typeSize v.type)} (hv : v.Readable t)
    (hnumber : v.kind ≠ .number) (hsrc : t.typeSize v.type ≤ t.wordSize)
    (hy : c.low? env v = some y) (hn : n = 1 ∨ n = 2 ∨ n = 4 ∨ n = 8) (hle : n ≤ t.typeSize v.type)
    (hbyte : ¬ (v.isRegister = true ∧ v.name ∈ t.byteless ∧ n = 1)) :
    c.value? env n (if v.isRegister then .reg (t.resize v.name n) else v.operand) =
      some (y.setWidth (8 * n)) := by
  cases hv with
  | register hkind hpool =>
    rw [low?_register hkind, Option.some.injEq] at hy
    rw [if_pos hkind, value?_resize hpool hn (hle.trans hsrc) fun h => hbyte ⟨hkind, h.2, h.1⟩,
      ← hy, BitVec.setWidth_setWidth_of_le _ (by omega)]
  | memory hkind => rw [if_neg (not_isRegister_of_isMemory hkind), value?_operand hkind hy hle]
  | number hkind => exact absurd hkind hnumber

/-- The move of a cast leaves the number of its source in the low bytes of the register. -/
theorem exec_intToInt (hr : r ∈ t.intPool) (hv : v.Readable t)
    (hsrc : t.typeSize v.type ≤ t.wordSize) (hdst : t.typeSize type ≤ t.wordSize)
    (hnamed : v.Movable t (.ofRegister r type true)) {x : Int} (hx : c.signed? env v = some x) :
    ∃ w, c.exec env (t.intToInt r v type) = some (c.set r w) ∧
      w.setWidth (8 * t.typeSize type) = BitVec.ofInt _ x := by
  have hsize := t.typeSize_cases v.type
  have hsize' := t.typeSize_cases type
  have hfull := t.view?_intPool hr
  have htarget : ¬ (t.typeSize type = 1 ∧ r ∈ t.byteless) := fun h => hnamed.1 ⟨rfl, h.2, h.1⟩
  simp only [Target.intToInt]
  by_cases hnumber : v.kind = .number
  · rw [signed?, if_pos hnumber] at hx
    rw [if_pos hnumber]
    refine exec_mov_low hr hsize' hdst htarget ?_
    rw [value?, hx, Option.map_some]
  · rw [signed?, if_neg hnumber, Option.map_eq_some_iff] at hx
    obtain ⟨y, hy, rfl⟩ := hx
    rw [if_neg hnumber]
    -- A move reads as many bytes as the narrower of the two types has.
    have hmin : ∀ {n}, min (t.typeSize v.type) (t.typeSize type) = n →
        ¬ (v.isRegister = true ∧ v.name ∈ t.byteless ∧ n = 1) :=
      fun hmin h => hnamed.2 ⟨h.1, h.2.1, hmin.trans h.2.2⟩
    by_cases hlt : t.typeSize v.type < t.typeSize type
    · have hwide : ∀ s : Operand, s.bytes? t = some (t.typeSize v.type) →
          c.value? env _ s = some y → ∃ w, c.exec env ⟨t.signExtend (t.typeSize v.type),
            [.reg r, s]⟩ = some (c.set r w) ∧
              w.setWidth (8 * t.typeSize type) = BitVec.ofInt _ y.toInt := by
        intro s hbytes hvalue
        exact ⟨_, exec_signExtend hfull hbytes hsize (by omega) hvalue,
          setWidth_ofInt (by omega) y.toInt⟩
      have hval := value?_source hv hnumber hsrc hy hsize le_rfl (hmin (by omega))
      rw [BitVec.setWidth_eq] at hval
      rw [if_pos hlt]
      by_cases hreg : v.isRegister = true
      · rw [if_pos hreg] at hval ⊢
        have hspan := t.span?_resize (hv.mem_intPool hreg) hsize hsrc
        exact hwide _ (by rw [Operand.bytes?, hspan]; rfl) hval
      · have hbytes := t.bytes_operandSize hsize
        rw [if_neg hreg] at hval ⊢
        refine hwide _ (by rw [Target.sizedOperand, Operand.bytes?, hbytes]) ?_
        rw [Target.sizedOperand, value?, if_pos hbytes, hval]
    · have hval := value?_source hv hnumber hsrc hy hsize' (by omega) (hmin (by omega))
      have hnum : y.setWidth (8 * t.typeSize type) = BitVec.ofInt _ y.toInt :=
        (BitVec.signExtend_eq_setWidth_of_le y (by omega)).symm
      rw [hnum] at hval
      rw [if_neg hlt]
      by_cases hreg : v.isRegister = true
      · rw [if_pos hreg] at hval ⊢
        exact exec_mov_low hr hsize' hdst htarget hval
      · rw [if_neg hreg] at hval ⊢
        exact exec_mov_low hr hsize' hdst htarget hval

theorem exec_mov_to_nameless (hr : r ∈ t.byteless) :
    c.exec env ⟨.mov, [.reg (t.resize r 1), s]⟩ = none := by
  simp only [exec, t.view?_resize_one hr, Option.bind_none]

theorem exec_mov_of_nameless (hr : r ∈ t.byteless) (a : Text) :
    c.exec env ⟨.mov, [.reg a, .reg (t.resize r 1)]⟩ = none := by
  simp only [exec, value?_nameless hr, Option.map_none]
  exact Option.bind_eq_none_iff.mpr fun _ _ => rfl

/-- A move of a byte without a name, into a register or out of one, does not run. -/
theorem exec_intToInt_nameless (h : ¬ v.Movable t (.ofRegister r type true)) :
    c.exec env (t.intToInt r v type) = none := by
  have hpos : 1 ≤ t.typeSize v.type := by
    have := t.typeSize_cases v.type
    omega
  rw [Value.Movable, not_and_or, not_not, not_not] at h
  simp only [Target.intToInt]
  rcases h with ⟨-, hr, hone⟩ | ⟨hreg, hr, hmin⟩
  · have hsize : t.typeSize type = 1 := hone
    have hge : ¬ t.typeSize v.type < t.typeSize type := by omega
    rw [hsize] at hge ⊢
    rw [if_neg hge]
    split
    · exact exec_mov_to_nameless hr
    · split
      · exact exec_mov_to_nameless hr
      · exact exec_mov_to_nameless hr
  · have hmin' : min (t.typeSize v.type) (t.typeSize type) = 1 := hmin
    rw [if_neg (kind_ne_number_of_isRegister hreg), if_pos hreg, if_pos hreg]
    by_cases hlt : t.typeSize v.type < t.typeSize type
    · have hsize : t.typeSize v.type = 1 := by omega
      rw [if_pos hlt, hsize]
      exact exec_signExtend_nameless hr
    · have hsize : t.typeSize type = 1 := by omega
      rw [if_neg hlt, hsize]
      exact exec_mov_of_nameless hr _

end Cpu

/-! ## In a run -/

namespace Engine

/-- A cast between integer types converts, if the target names the bytes that it moves: otherwise
the one instruction that it emits runs on no machine.  Of whatever kind the source is, and whatever
is in the registers, the instruction changes its own register only, and leaves in the low bytes of
it the number of the source, cut or sign-extended to the size of the type.  A print of the result,
after any further requests and on any machine that still has these bytes, pushes the sign extension
of the number to a word. -/
theorem cast_converts_iff (t : Target) (strict : Bool) (qs : List Request) (v a : Value)
    (type : Text)
    (hcast : ((Engine.new t strict).serveAll qs).reply (.cast v type) = .ok (.value a))
    (hsrc : v.isFloat = false) (hdst : TypePolicy.isFloat type = false)
    (hsrcSize : t.typeSize v.type ≤ t.wordSize) (hdstSize : t.typeSize type ≤ t.wordSize)
    (hv : v.Readable t) :
    ∃ i : Instr,
      (((Engine.new t strict).serveAll qs).serve (.cast v type)).body =
        ((Engine.new t strict).serveAll qs).body ++ [Line.instr i] ∧
      a.type = type ∧
      ∀ (env : Text → t.Word) (c : Cpu t), ((∃ c', c.exec env i = some c') ↔ v.Movable t a) ∧
        ∀ c', c.exec env i = some c' → ∃ x w, c.signed? env v = some x ∧ c' = c.set a.name w ∧
        w.setWidth (8 * t.typeSize type) = BitVec.ofInt _ x ∧
        ∀ qs', let e := (Engine.new t strict).serveAll (qs ++ .cast v type :: qs')
          e.reply (.print a) = .ok .done ∧
          ∃ pushes : List Instr, (e.serve (.print a)).body =
              e.body ++ (pushes ++ t.callThenDrop "print_int" 1).map .instr ∧
            ∀ d : Cpu t, (d.reg a.name).setWidth (8 * t.typeSize type) = w.setWidth _ →
              let word := (BitVec.ofInt (8 * t.typeSize type) x).signExtend _
              d.run env pushes = some ((d.set a.name word).push word) := by
  obtain ⟨r, is, hr, rfl, hcode, hbody⟩ := Engine.body_cast t strict qs hcast
  have hint : (v.withType (t.typeOrWord v.type)).isFloat = false :=
    (isFloat_typeOrWord t v.type).trans hsrc
  have hpool : r ∈ t.intPool := by
    rw [← Engine.pool_int t strict qs]
    exact regClass_of_not_isFloat hdst ▸ hr.mem_pool
  have his : is = [t.intToInt r (v.withType (t.typeOrWord v.type)) type] := by
    cases hcode with
    | integer => rfl
    | widened _ hfloat | loaded _ hfloat => rw [hdst] at hfloat; cases hfloat
    | rounded hfloat | loadedRounded _ hfloat | float _ hfloat => rw [hint] at hfloat; cases hfloat
  have hsize : t.typeSize (v.withType (t.typeOrWord v.type)).type = t.typeSize v.type :=
    t.typeSize_typeOrWord v.type
  have hmovable : (v.withType (t.typeOrWord v.type)).Movable t (.ofRegister r type true) ↔
      v.Movable t (.ofRegister r type true) := by
    rw [Value.Movable, Value.Movable, hsize]
    rfl
  rw [his] at hbody
  refine ⟨_, hbody, rfl, fun env c => ?_⟩
  obtain ⟨x, hx⟩ := Cpu.exists_signed? env c hv
  have hruns : v.Movable t (.ofRegister r type true) → ∃ w, c.exec env _ = some (c.set r w) ∧ _ :=
    fun h => Cpu.exec_intToInt hpool (hv.withType _) (hsize.trans_le hsrcSize) hdstSize
      (hmovable.mpr h) ((Cpu.signed?_typeOrWord c v).trans hx)
  have hnamed : ∀ c', c.exec env (t.intToInt r (v.withType (t.typeOrWord v.type)) type) = some c' →
      v.Movable t (.ofRegister r type true) := by
    intro c' hexec
    by_contra h
    rw [Cpu.exec_intToInt_nameless (mt hmovable.mp h)] at hexec
    cases hexec
  refine ⟨⟨fun h => h.elim hnamed, fun h => (hruns h).elim fun _ hw => ⟨_, hw.1⟩⟩, ?_⟩
  intro c' hexec
  obtain ⟨w, hexec', hw⟩ := hruns (hnamed c' hexec)
  cases hexec.symm.trans hexec'
  refine ⟨x, w, hx, rfl, hw, fun qs' => ?_⟩
  obtain ⟨ms, hprint⟩ := print_register_granted
    ((Engine.new t strict).serveAll (qs ++ .cast v type :: qs')) (v := .ofRegister r type true) rfl hdst
  have hreply : ((Engine.new t strict).serveAll (qs ++ .cast v type :: qs')).reply
      (.print (.ofRegister r type true)) = .ok .done :=
    congrArg Prod.fst (grants_map.mpr ⟨(), hprint, rfl⟩)
  obtain ⟨is, his, hbody'⟩ := Engine.body_print t strict _ hreply
  cases his with
  | text _ hkind => cases hkind
  | single _ _ hfloat => exact absurd hfloat (by simp [hdst, Value.isFloat, Value.ofRegister])
  | narrowed _ _ _ _ hfloat => exact absurd hfloat (by simp [hdst, Value.isFloat, Value.ofRegister])
  | loaded hreg => cases hreg
  | register =>
    refine ⟨hreply, _, hbody', fun d hd => ?_⟩
    have hwiden : d.run env (t.widening (.ofRegister r type true)) = _ :=
      Cpu.run_widening hpool hdstSize fun h => (hnamed _ hexec).1 ⟨rfl, h.2, h.1⟩
    have hpush := Cpu.run_push hpool hwiden
    have hlow : (d.reg r).setWidth (8 * t.typeSize type) = BitVec.ofInt _ x := hd.trans hw
    simp only [Value.ofRegister, hlow] at hpush
    exact hpush

/-- A word is cut to its negative low byte, and printed with the sign of this byte.  Where only a
register is left whose low byte has no name, the cast is granted, but its move does not run. -/
theorem cast_converts_iff_narrowed :
    let env : Text → Target.Word .bits32 := fun _ => 0
    let v := Value.ofRegister "ebx" "int32" true
    let e := (Engine.new .bits32 true).serveAll [.alloc "int32"]
    let full := (Engine.new .bits32 true).serveAll [.alloc "int32", .alloc "int32", .alloc "int32"]
    (e.reply (.cast v "int8") = .ok (.value (.ofRegister "ecx" "int8" true)) ∧
      Cpu.sample.signed? env v = some 0x123456FF ∧
      ∃ (i : Instr) (c : Cpu .bits32) (pushes : List Instr) (d : Cpu .bits32),
        (e.serve (.cast v "int8")).body = e.body ++ [Line.instr i] ∧
        Cpu.sample.exec env i = some c ∧ c.run env pushes = some d ∧ d.slot 0 = 0xFFFFFFFF) ∧
    full.reply (.cast v "int8") = .ok (.value (.ofRegister "esi" "int8" true)) ∧
      ∃ i : Instr, (full.serve (.cast v "int8")).body = full.body ++ [Line.instr i] ∧
        ¬ ∃ c, Cpu.sample.exec env i = some c := by
  intro env v e full
  have hcast : e.reply (.cast v "int8") = .ok (.value (.ofRegister "ecx" "int8" true)) := by
    decide +kernel
  have hfull : full.reply (.cast v "int8") = .ok (.value (.ofRegister "esi" "int8" true)) := by
    decide +kernel
  refine ⟨?_, hfull, ?_⟩
  · obtain ⟨i, hbody, -, hmove⟩ := cast_converts_iff .bits32 true [.alloc "int32"] v _ "int8" hcast
      (by decide +kernel) (by decide +kernel) (by decide +kernel) (by decide +kernel)
      (.register rfl (by decide +kernel))
    obtain ⟨hruns, hconverts⟩ := hmove env Cpu.sample
    obtain ⟨c, hexec⟩ := hruns.mpr (by decide +kernel)
    obtain ⟨x, w, hx, rfl, hw, hprint⟩ := hconverts c hexec
    obtain ⟨-, pushes, -, hpush⟩ := hprint []
    have hvalue : Cpu.sample.signed? env v = some 0x123456FF := by decide +kernel
    rw [hvalue, Option.some.injEq] at hx
    refine ⟨hcast, hvalue, i, _, pushes, _, hbody, hexec, hpush _ ?_, ?_⟩
    · rw [Cpu.reg_set_self]
    · rw [Cpu.slot_push_zero, ← hx]
      decide +kernel
  · obtain ⟨i, hbody, -, hmove⟩ := cast_converts_iff .bits32 true
      [.alloc "int32", .alloc "int32", .alloc "int32"] v _ "int8" hfull (by decide +kernel)
      (by decide +kernel) (by decide +kernel) (by decide +kernel)
      (.register rfl (by decide +kernel))
    exact ⟨i, hbody, fun hrun => absurd ((hmove env Cpu.sample).1.mp hrun) (by decide +kernel)⟩

end Engine

end Assembly
