import Assembly.Proofs.Cast.Code
import Assembly.Proofs.Machine.Cpu
import Assembly.Proofs.Print.Code

/-!
# Moves that extend a sign

A move that extends a sign needs a destination wider than its source.  The code compares sizes of
types, while the operands have the widths of names: a register has no name for more bytes than a
word.  Loads, parameters, results, arguments and prints extend to a word only what is narrower
than one.  A cast compares its two types instead, and goes wrong just where the type of the source
has a word already and the other type is wider still.
-/

namespace Assembly

open Move Emit

/-- If the instruction extends a sign, its destination is a register that is wider than its source,
and the long form takes four bytes to eight. -/
def Instr.Widens (t : Target) (i : Instr) : Prop :=
  i.mnemonic = .movsx ∨ i.mnemonic = .movsxd →
    ∃ d s m n, i.operands = [.reg d, s] ∧ (Operand.reg d).bytes? t = some m ∧
      s.bytes? t = some n ∧ n < m ∧ (i.mnemonic = .movsxd → n = 4 ∧ m = 8)

namespace Request

/-- The values that a request works on. -/
def operands : Request → List Value
  | release v | load v _ | cast v _ | print v | printFloat v | returnValue _ v => [v]
  | call _ args | callAs _ args _ => args
  | _ => []

/-- A cast whose source, not a literal, has a word or more, while the sign is extended further: to
the size of an integer type, or to the four bytes that a conversion to a floating type reads. -/
def overextends (t : Target) : Request → Prop
  | cast v type => v.isFloat = false ∧ v.kind ≠ .number ∧ t.wordSize ≤ t.typeSize v.type ∧
      t.typeSize v.type < if TypePolicy.isFloat type then 4 else t.typeSize type
  | _ => False

end Request

/-! ## Widths of operands -/

namespace Target

variable {t : Target} {r : Text} {n : Nat}

theorem intPool_subset_aliases (t : Target) : ∀ r ∈ t.intPool, r ∈ t.aliases.map Prod.fst := by
  cases t <;> decide

/-- The name of the low bytes of a register.  There is none for more than a word, so the register
itself stands for it. -/
theorem bytes?_resize (hr : r ∈ t.aliases.map Prod.fst) (hn : n = 1 ∨ n = 2 ∨ n = 4 ∨ n = 8) :
    (Operand.reg (t.resize r n)).bytes? t = some (min n t.wordSize) := by
  have hall : ∀ r ∈ t.aliases.map Prod.fst, ∀ n ∈ [1, 2, 4, 8],
      (Operand.reg (t.resize r n)).bytes? t = some (min n t.wordSize) := by
    cases t <;> decide +kernel
  exact hall r hr n (by simpa using hn)

theorem bytes?_alias (hr : r ∈ t.aliases.map Prod.fst) :
    (Operand.reg r).bytes? t = some t.wordSize := by
  have hall : ∀ r ∈ t.aliases.map Prod.fst, (Operand.reg r).bytes? t = some t.wordSize := by
    cases t <;> decide +kernel
  exact hall r hr

theorem bytes?_returnReg (t : Target) : (Operand.reg t.returnReg).bytes? t = some t.wordSize := by
  cases t <;> decide

theorem bytes?_sizedOperand (v : Value) (hn : n = 1 ∨ n = 2 ∨ n = 4 ∨ n = 8) :
    (t.sizedOperand n v).bytes? t = some n := by
  rw [sizedOperand, Operand.bytes?, t.bytes_operandSize hn]

end Target

/-! ## Single instructions -/

namespace Instr

variable {t : Target} {i : Instr} {d r : Text} {s : Operand} {m n size : Nat} {v : Value} {type : Text}

/-- Instructions that extend no sign. -/
def keepsWidth (i : Instr) : Bool := i.mnemonic ≠ .movsx && i.mnemonic ≠ .movsxd

theorem widens_of_keepsWidth (h : i.keepsWidth = true) : i.Widens t := by
  simp only [keepsWidth, Bool.and_eq_true, decide_eq_true_eq] at h
  exact fun hsx => absurd hsx (by simp [h.1, h.2])

theorem widens_movsx_iff (hd : (Operand.reg d).bytes? t = some m) (hs : s.bytes? t = some n) :
    (Instr.mk .movsx [.reg d, s]).Widens t ↔ n < m := by
  constructor
  · intro h
    obtain ⟨d', s', m', n', hops, hd', hs', hlt, -⟩ := h (.inl rfl)
    cases hops
    rw [hd, Option.some.injEq] at hd'
    rw [hs, Option.some.injEq] at hs'
    omega
  · intro hlt _
    exact ⟨d, s, m, n, rfl, hd, hs, hlt, fun h => nomatch h⟩

theorem widens_movsxd (hd : (Operand.reg d).bytes? t = some 8) (hs : s.bytes? t = some 4) :
    (Instr.mk .movsxd [.reg d, s]).Widens t :=
  fun _ => ⟨d, s, 8, 4, rfl, hd, hs, by decide, fun _ => ⟨rfl, rfl⟩⟩

/-- The extension of a size to a word is right just if the size is less than a word.  The source
may be named by fewer bytes only where it has more than a word. -/
theorem widens_signExtend_iff (hd : (Operand.reg d).bytes? t = some t.wordSize)
    (hs : s.bytes? t = some n) (hn : n = size ∨ n = min size t.wordSize) :
    (Instr.mk (t.signExtend size) [.reg d, s]).Widens t ↔ size < t.wordSize := by
  rw [Target.signExtend]
  split
  case isTrue h =>
    have hword : t.wordSize = 8 := by
      cases t with
      | bits16 | bits32 => cases h.2
      | bits64 => rfl
    have hfour : n = 4 := by omega
    rw [hword] at hd ⊢
    rw [hfour] at hs
    exact iff_of_true (widens_movsxd hd hs) (by omega)
  case isFalse =>
    rw [widens_movsx_iff hd hs]
    omega

theorem widens_intLoad (hr : r ∈ t.intPool) (v : Value) (type : Text) :
    (t.intLoad r v type).Widens t := by
  have hsize := t.typeSize_cases type
  have hd := Target.bytes?_alias (t.intPool_subset_aliases r hr)
  simp only [Target.intLoad]
  split
  · exact widens_of_keepsWidth rfl
  split
  case isTrue h => exact (widens_signExtend_iff hd (Target.bytes?_sizedOperand v hsize) (.inl rfl)).mpr h.2
  case isFalse => exact widens_of_keepsWidth rfl

theorem widens_load (hr : TypePolicy.isFloat type = false → r ∈ t.intPool) (v : Value) :
    (t.load r v type).Widens t := by
  rw [Target.load]
  split
  case isTrue =>
    rw [Target.floatMove]
    split <;> exact widens_of_keepsWidth rfl
  case isFalse hfloat => exact widens_intLoad (hr (by simpa using hfloat)) v type

theorem widens_widening (hv : v.name ∈ t.aliases.map Prod.fst) :
    ∀ i ∈ t.widening v, i.Widens t := by
  have hsize := t.typeSize_cases v.type
  have hd := Target.bytes?_alias hv
  intro i hi
  simp only [Target.widening] at hi
  split at hi
  case isTrue h =>
    rw [List.mem_singleton] at hi
    rw [hi]
    exact (widens_signExtend_iff hd (Target.bytes?_resize hv hsize) (.inr rfl)).mpr h
  case isFalse => cases hi

theorem widens_fetch (slot : Address) (hr : TypePolicy.isFloat type = false → r ∈ t.intPool) :
    (t.fetch r type slot).Widens t := by
  have hsize := t.typeSize_cases type
  simp only [Target.fetch]
  split
  · rw [Target.floatMove]
    split <;> exact widens_of_keepsWidth rfl
  case isFalse hfloat =>
    have hd := Target.bytes?_alias (t.intPool_subset_aliases r (hr (by simpa using hfloat)))
    split
    case isTrue h =>
      have hs : (Operand.sized (t.operandSize (t.typeSize type)) (.mem slot)).bytes? t = _ :=
        congrArg some (t.bytes_operandSize hsize)
      exact (widens_signExtend_iff hd hs (.inl rfl)).mpr h
    case isFalse => exact widens_of_keepsWidth rfl

theorem widens_intReturn (v : Value) : (t.intReturn v).Widens t := by
  have hsize := t.typeSize_cases v.type
  simp only [Target.intReturn]
  split
  case isTrue h =>
    exact (widens_signExtend_iff t.bytes?_returnReg (Target.bytes?_sizedOperand v hsize)
      (.inl rfl)).mpr h.2
  case isFalse => exact widens_of_keepsWidth rfl

/-! ## Conversions of integers -/

theorem widens_intToInt_iff (hr : r ∈ t.intPool)
    (hv : v.isRegister = true → v.name ∈ t.aliases.map Prod.fst) :
    (t.intToInt r v type).Widens t ↔ ¬ (v.kind ≠ .number ∧ t.wordSize ≤ t.typeSize v.type ∧
      t.typeSize v.type < t.typeSize type) := by
  have hsize := t.typeSize_cases v.type
  have hd := Target.bytes?_alias (t.intPool_subset_aliases r hr)
  simp only [Target.intToInt]
  by_cases hnumber : v.kind = .number
  · rw [if_pos hnumber]
    exact iff_of_true (widens_of_keepsWidth rfl) fun h => h.1 hnumber
  rw [if_neg hnumber]
  by_cases hlt : t.typeSize v.type < t.typeSize type
  · have hwide : ∀ {s : Operand} {n : Nat}, s.bytes? t = some n →
        n = t.typeSize v.type ∨ n = min (t.typeSize v.type) t.wordSize →
        ((Instr.mk (t.signExtend (t.typeSize v.type)) [.reg r, s]).Widens t ↔
          ¬ (v.kind ≠ .number ∧ t.wordSize ≤ t.typeSize v.type ∧
            t.typeSize v.type < t.typeSize type)) := by
      intro s n hs hn
      rw [widens_signExtend_iff hd hs hn]
      simp [hnumber, hlt]
    rw [if_pos hlt]
    split
    case isTrue hreg => exact hwide (Target.bytes?_resize (hv hreg) hsize) (.inr rfl)
    case isFalse => exact hwide (Target.bytes?_sizedOperand v hsize) (.inl rfl)
  · rw [if_neg hlt]
    have hmov : (if v.isRegister = true then
        Instr.mk .mov [.reg (t.resize r (t.typeSize type)), .reg (t.resize v.name (t.typeSize type))]
      else .mk .mov [.reg (t.resize r (t.typeSize type)), v.operand]).Widens t := by
      split <;> exact widens_of_keepsWidth rfl
    exact iff_of_true hmov fun h => hlt h.2.2

theorem keepsWidth_intConversion (t : Target) (type : Text) (ops : List Operand) :
    (Instr.mk (t.intConversion type) ops).keepsWidth = true := by
  rw [Target.intConversion]
  split <;> rfl

theorem widens_movsx_four_iff (hr : r ∈ t.aliases.map Prod.fst) {m : Nat} (hm : m = 1 ∨ m = 2)
    (hs : s.bytes? t = some n) (hn : n = m ∨ n = min m t.wordSize) :
    (Instr.mk .movsx [.reg (t.resize r 4), s]).Widens t ↔ m < t.wordSize := by
  have hword := t.wordSize_cases
  rw [widens_movsx_iff (Target.bytes?_resize hr (by decide)) hs]
  omega

theorem readSize_of_lt_four (h : t.typeSize v.type < 4) : t.readSize v = 4 := by
  rw [Target.readSize, if_neg (by omega)]

theorem widens_regToFloat_iff (hv : v.name ∈ t.aliases.map Prod.fst) (dst type : Text) :
    (∀ i ∈ t.regToFloat dst v type, i.Widens t) ↔
      ¬ (t.wordSize ≤ t.typeSize v.type ∧ t.typeSize v.type < 4) := by
  have hsize := t.typeSize_cases v.type
  have hconv := widens_of_keepsWidth (t := t) (keepsWidth_intConversion t type
    [.reg dst, .reg (t.resize v.name (t.readSize v))])
  simp only [Target.regToFloat]
  by_cases hlt : t.typeSize v.type < 4
  · have hfour := widens_movsx_four_iff hv (m := t.typeSize v.type) (by omega)
      (Target.bytes?_resize hv hsize) (.inr rfl)
    rw [if_pos hlt, readSize_of_lt_four hlt] at *
    simp only [List.singleton_append, List.forall_mem_cons, hfour, hconv, List.not_mem_nil]
    simp [hlt]
  · simp only [if_neg hlt, List.nil_append, List.forall_mem_singleton]
    exact iff_of_true hconv fun h => hlt h.2

theorem widens_operandToFloat_iff {tmp : Text} (htmp : tmp ∈ t.intPool) (dst : Text) (v : Value)
    (type : Text) :
    (∀ i ∈ t.operandToFloat dst tmp v type, i.Widens t) ↔
      ¬ (v.kind ≠ .number ∧ t.wordSize ≤ t.typeSize v.type ∧ t.typeSize v.type < 4) := by
  have hsize := t.typeSize_cases v.type
  have hconv := widens_of_keepsWidth (t := t) (keepsWidth_intConversion t type
    [.reg dst, .reg (t.resize tmp (t.readSize v))])
  have hmov : ∀ s, (Instr.mk .mov [.reg (t.resize tmp (t.readSize v)), s]).Widens t :=
    fun s => widens_of_keepsWidth rfl
  simp only [Target.operandToFloat, List.forall_mem_cons, List.not_mem_nil]
  by_cases hnumber : v.kind = .number
  · simp [hnumber, hconv, hmov]
  by_cases hlt : t.typeSize v.type < 4
  · have hfour := widens_movsx_four_iff (t.intPool_subset_aliases tmp htmp)
      (m := t.typeSize v.type) (by omega) (Target.bytes?_sizedOperand v hsize) (.inl rfl)
    rw [readSize_of_lt_four hlt] at hconv ⊢
    simp [hnumber, hlt, hconv, hfour]
  · simp [hnumber, hlt, hconv, hmov]

end Instr

/-! ## The lines of a request -/

variable {e : Engine} {ms : List Move} {v : Value} {type r : Text} {t : Target} {f : RegisterFile}
  {is : List Instr}

theorem mem_intPool_of_hands (ht : e.regs.target = e.target)
    (hr : r ∈ e.regs.pool (TypePolicy.regClass type)) (hint : TypePolicy.isFloat type = false) :
    r ∈ e.target.intPool := by
  rw [regClass_of_not_isFloat hint] at hr
  exact ht ▸ hr

theorem ArgCode.widens (hcode : ArgCode t f v is) (hf : f.target = t)
    (hv : v.isRegister = true → v.isFloat = false → v.name ∈ t.aliases.map Prod.fst) :
    ∀ i ∈ is, i.Widens t := by
  cases hcode with
  | float =>
    have hmove : ∀ type ops, (Instr.mk (t.floatMove type) ops).keepsWidth = true := by
      intro type ops
      rw [Target.floatMove]
      split <;> rfl
    rw [Target.floatPush, List.forall_mem_cons, List.forall_mem_singleton]
    exact ⟨Instr.widens_of_keepsWidth rfl, Instr.widens_of_keepsWidth (hmove _ _)⟩
  | register hreg hfloat =>
    rw [List.forall_mem_append, List.forall_mem_singleton]
    exact ⟨Instr.widens_widening (hv hreg hfloat), Instr.widens_of_keepsWidth rfl⟩
  | label =>
    rw [List.forall_mem_cons, List.forall_mem_singleton, Target.labelLoad]
    refine ⟨?_, Instr.widens_of_keepsWidth rfl⟩
    split <;> exact Instr.widens_of_keepsWidth rfl
  | loaded _ _ _ htmp =>
    rw [List.forall_mem_cons, List.forall_mem_singleton]
    exact ⟨Instr.widens_intLoad (hf ▸ htmp.pool) _ _, Instr.widens_of_keepsWidth rfl⟩

theorem widens_callThenDrop (t : Target) (name : Text) (n : Nat) :
    ∀ i ∈ t.callThenDrop name n, i.Widens t := by
  rw [Target.callThenDrop, List.forall_mem_cons]
  refine ⟨Instr.widens_of_keepsWidth rfl, ?_⟩
  split
  · exact List.forall_mem_nil _
  · exact List.forall_mem_singleton.mpr (Instr.widens_of_keepsWidth rfl)

theorem widens_singlePush (t : Target) (reg : Text) : ∀ i ∈ t.singlePush reg, i.Widens t := by
  intro i hi
  refine Instr.widens_of_keepsWidth ?_
  cases t <;> simp only [Target.singlePush, List.mem_cons, List.not_mem_nil, or_false] at hi <;>
    rcases hi with rfl | rfl | rfl <;> rfl

theorem PrintCode.widens (hcode : PrintCode t f v is) (hf : f.target = t)
    (hv : v.isRegister = true → v.isFloat = false → v.name ∈ t.aliases.map Prod.fst) :
    ∀ i ∈ is, i.Widens t := by
  have hroutine : ∀ i ∈ [Instr.mk .call [.sym "print_float"], t.drop 8], i.Widens t :=
    List.forall_mem_cons.mpr ⟨Instr.widens_of_keepsWidth rfl,
      List.forall_mem_singleton.mpr (Instr.widens_of_keepsWidth rfl)⟩
  cases hcode with
  | text label =>
    intro i hi
    refine Instr.widens_of_keepsWidth ?_
    rw [List.mem_append, List.mem_append] at hi
    rcases hi with (hi | hi) | hi
    · obtain ⟨r, -, rfl⟩ := List.mem_map.mp hi
      rfl
    · cases t <;> simp only [Target.writeCall, Target.writeArgs, Target.trap, List.mem_append,
        List.mem_cons, List.not_mem_nil, or_false] at hi <;>
        rcases hi with (rfl | rfl | rfl | rfl) | rfl <;> rfl
    · obtain ⟨r, -, rfl⟩ := List.mem_map.mp hi
      rfl
  | single => exact List.forall_mem_append.mpr ⟨widens_singlePush t _, hroutine⟩
  | narrowed reg w type =>
    rw [List.forall_mem_append, List.forall_mem_cons, Target.narrow]
    refine ⟨⟨?_, widens_singlePush t _⟩, hroutine⟩
    split <;> exact Instr.widens_of_keepsWidth rfl
  | register hreg hfloat =>
    rw [List.forall_mem_append, List.forall_mem_append, List.forall_mem_singleton]
    exact ⟨⟨Instr.widens_widening (hv hreg hfloat), Instr.widens_of_keepsWidth rfl⟩,
      widens_callThenDrop t _ _⟩
  | loaded _ _ _ htmp =>
    rw [List.forall_mem_append, List.forall_mem_cons, List.forall_mem_singleton]
    exact ⟨⟨Instr.widens_intLoad (hf ▸ htmp.mem_pool) _ _, Instr.widens_of_keepsWidth rfl⟩,
      widens_callThenDrop t _ _⟩

/-- The code of a cast is where an extension may go too far. -/
theorem CastCode.widens_iff (hcode : CastCode t f v type r is) (hf : f.target = t)
    (hr : r ∈ f.pool (TypePolicy.regClass type))
    (hv : v.isRegister = true → v.isFloat = false → v.name ∈ t.aliases.map Prod.fst) :
    (∀ i ∈ is, i.Widens t) ↔ ¬ (Request.cast v type).overextends t := by
  have hfloat : v.isFloat = true → ¬ (Request.cast v type).overextends t := by
    intro hfloat hover
    rw [Request.overextends, hfloat] at hover
    cases hover.1
  have hround : ∀ dst src srcType, (t.floatToInt dst src srcType type).Widens t := by
    intro dst src srcType
    rw [Target.floatToInt]
    split <;> exact Instr.widens_of_keepsWidth rfl
  cases hcode with
  | integer hsrc hdst =>
    have hpool : r ∈ t.intPool := by
      rw [regClass_of_not_isFloat hdst] at hr
      exact hf ▸ hr
    rw [List.forall_mem_singleton, Instr.widens_intToInt_iff hpool fun hreg => hv hreg hsrc]
    simp [Request.overextends, hsrc, hdst]
  | widened hsrc hdst hreg =>
    have hnumber : v.kind ≠ .number := by
      intro h
      simp [Value.isRegister, h] at hreg
    rw [Instr.widens_regToFloat_iff (hv hreg hsrc)]
    simp [Request.overextends, hsrc, hdst, hnumber]
  | loaded hsrc hdst _ htmp =>
    rw [Instr.widens_operandToFloat_iff (hf ▸ htmp)]
    simp [Request.overextends, hsrc, hdst]
  | rounded hsrc =>
    exact iff_of_true (List.forall_mem_singleton.mpr (hround _ _ _)) (hfloat hsrc)
  | @loadedRounded tmp srcType w hsrc htmp =>
    have hload : (t.load tmp w srcType).Widens t := by
      refine Instr.widens_load (fun hint => ?_) w
      rw [regClass_of_not_isFloat hint] at htmp
      exact hf ▸ htmp
    exact iff_of_true (List.forall_mem_cons.mpr ⟨hload, List.forall_mem_singleton.mpr (hround _ _ _)⟩)
      (hfloat hsrc)
  | float w hsrc =>
    refine iff_of_true (List.forall_mem_singleton.mpr ?_) (hfloat hsrc)
    simp only [Target.floatToFloat, Target.floatMove]
    split
    · exact Instr.widens_of_keepsWidth rfl
    split
    · exact Instr.widens_of_keepsWidth rfl
    · split <;> exact Instr.widens_of_keepsWidth rfl

theorem forall_instr_map {P : Instr → Prop} :
    (∀ i, Line.instr i ∈ is.map Line.instr → P i) ↔ ∀ i ∈ is, P i := by
  simp

theorem args_widen {args : List Value} {codes : List (List Instr)}
    (h : List.Forall₂ (ArgCode t f) args codes) (hf : f.target = t)
    (hargs : ∀ v ∈ args, v.isRegister = true → v.isFloat = false → v.name ∈ t.aliases.map Prod.fst) :
    ∀ is ∈ codes, ∀ i ∈ is, i.Widens t := by
  induction h with
  | nil => exact List.forall_mem_nil _
  | cons hcode _ ih =>
    exact List.forall_mem_cons.mpr ⟨hcode.widens hf (hargs _ List.mem_cons_self),
      ih fun v hv => hargs v (List.mem_cons_of_mem _ hv)⟩

theorem callAs_widens {name : Text} {args : List Value} {a : Value}
    (h : (callAs name args type).Grants e a ms) (ht : e.regs.target = e.target)
    (hargs : ∀ v ∈ args, v.isRegister = true → v.isFloat = false →
      v.name ∈ e.target.aliases.map Prod.fst) :
    ∀ i, Line.instr i ∈ ms.flatMap lines → i.Widens e.target := by
  obtain ⟨codes, hcodes, hlines⟩ := callAs_code h
  rw [hlines, forall_instr_map, List.forall_mem_append, List.forall_mem_append,
    List.forall_mem_singleton]
  refine ⟨⟨fun i hi => ?_, widens_callThenDrop _ _ _⟩, ?_⟩
  · obtain ⟨is, his, hi⟩ := List.mem_flatten.mp hi
    exact args_widen hcodes ht hargs is (List.mem_reverse.mp his) i hi
  · rw [Target.resultMove, Target.floatMove]
    split
    · split <;> exact Instr.widens_of_keepsWidth rfl
    · exact Instr.widens_of_keepsWidth rfl

theorem printFloat_widens {u : Unit} (h : (printFloat v).Grants e u ms) :
    ∀ i, Line.instr i ∈ ms.flatMap lines → i.Widens e.target := by
  have hnarrow : ∀ reg w type, (e.target.narrow reg w type).Widens e.target := by
    intro reg w type
    rw [Target.narrow]
    split <;> exact Instr.widens_of_keepsWidth rfl
  have hpush := widens_singlePush e.target
  have hcall : (Instr.mk .call [.sym "print_float"]).Widens e.target := Instr.widens_of_keepsWidth rfl
  have hdrop : (e.target.drop 8).Widens e.target := Instr.widens_of_keepsWidth rfl
  rw [← flatMap_lines_essence]
  obtain ⟨reg, hms⟩ | ⟨reg, w, type, -, hms⟩ := printFloat_moves h
  · rw [hms, flatMap_lines_instrs, forall_instr_map, List.forall_mem_append, List.forall_mem_cons,
      List.forall_mem_singleton]
    exact ⟨hpush reg, hcall, hdrop⟩
  · rw [hms, List.flatMap_append, List.flatMap_append, List.flatMap_cons, flatMap_lines_instrs]
    simp only [lines_take, lines_give, lines_instr, List.flatMap_cons, List.flatMap_nil,
      List.nil_append, List.append_nil, List.map_cons, List.cons_append, List.mem_cons,
      List.mem_append, Line.instr.injEq, List.not_mem_nil, or_false]
    rintro i (rfl | hi | rfl | rfl)
    · exact hnarrow reg w type
    · exact forall_instr_map.mpr (hpush reg) i hi
    · exact hcall
    · exact hdrop

theorem loadValue_widens {a : Value} (h : (loadValue v type).Grants e a ms)
    (ht : e.regs.target = e.target) : ∀ i, Line.instr i ∈ ms.flatMap lines → i.Widens e.target := by
  obtain ⟨-, -, rfl⟩ | ⟨-, r, w, type', hr, -, hms⟩ := loadValue_moves h
  · exact fun i hi => nomatch hi
  · have hload := Instr.widens_load (t := e.target) (mem_intPool_of_hands ht hr.mem_pool) w
    rw [← flatMap_lines_essence, hms]
    intro i hi
    cases List.mem_singleton.mp hi
    exact hload

theorem param_widens {g : FunctionRef} {name : Text} {a : Value} (h : (param g name).Grants e a ms)
    (ht : e.regs.target = e.target) : ∀ i, Line.instr i ∈ ms.flatMap lines → i.Widens e.target := by
  obtain ⟨_, -, -, ⟨-, rfl⟩ | ⟨-, r, type', slot, hr, -, hms⟩⟩ := param_moves h
  · exact fun i hi => nomatch hi
  · have hfetch := Instr.widens_fetch (t := e.target) slot
      (mem_intPool_of_hands ht hr.mem_pool)
    rw [← flatMap_lines_essence, hms]
    intro i hi
    cases List.mem_singleton.mp hi
    exact hfetch

theorem returnValue_widens {g : FunctionRef} {u : Unit} (h : (returnValue g v).Grants e u ms) :
    ∀ i, Line.instr i ∈ ms.flatMap lines → i.Widens e.target := by
  obtain ⟨w, hms | hms⟩ := returnValue_moves h
  · rw [← flatMap_lines_essence, hms]
    intro i hi
    cases List.mem_singleton.mp hi
    rw [Target.floatReturn, Target.floatMove]
    split <;> exact Instr.widens_of_keepsWidth rfl
  · rw [← flatMap_lines_essence, hms]
    intro i hi
    cases List.mem_singleton.mp hi
    exact Instr.widens_intReturn w

theorem exitCall_widens (t : Target) (code : Int) : ∀ i ∈ t.exitCall code, i.Widens t := by
  intro i hi
  refine Instr.widens_of_keepsWidth ?_
  rw [Target.exitCall, List.mem_append, List.mem_singleton] at hi
  rcases hi with hi | rfl
  · cases t <;> simp only [Target.exitArgs, List.mem_cons, List.not_mem_nil, or_false] at hi <;>
      rcases hi with rfl | rfl <;> first | rfl | (split <;> rfl)
  · cases t <;> rfl

theorem Request.widens_iff {q : Request} {a : Reply} (h : q.emit.Grants e a ms)
    (ht : e.regs.target = e.target)
    (hregs : ∀ v ∈ q.operands, v.isRegister = true → v.isFloat = false →
      v.name ∈ e.target.aliases.map Prod.fst) :
    (∀ i, Line.instr i ∈ ms.flatMap lines → i.Widens e.target) ↔ ¬ q.overextends e.target := by
  -- Requests without code make moves that have no lines.
  have hsilent : (essence ms).flatMap lines = [] →
      ∀ i, Line.instr i ∈ ms.flatMap lines → i.Widens e.target := by
    intro hnil i hi
    rw [← flatMap_lines_essence, hnil] at hi
    cases hi
  cases q with
  | cast v type =>
    obtain ⟨_, hcast, -⟩ := grants_map.mp h
    obtain ⟨r, is, hr, -, hcode, hlines⟩ := cast_code hcast
    have hsame : (Request.cast (v.withType (e.target.typeOrWord v.type)) type).overextends e.target ↔
        (Request.cast v type).overextends e.target := by
      simp only [overextends, Value.isFloat, Value.withType, isFloat_typeOrWord,
        e.target.typeSize_typeOrWord]
    rw [hlines, forall_instr_map, hcode.widens_iff ht hr.mem_pool ?_, hsame]
    intro hreg hint
    exact hregs v (List.mem_singleton_self v) hreg ((isFloat_typeOrWord _ _).symm.trans hint)
  | declareGlobal =>
    obtain ⟨_, h, -⟩ := grants_map.mp h
    exact iff_of_true (hsilent (by rw [(declareGlobal_moves h).2]; rfl)) id
  | declareConst =>
    obtain ⟨_, h, -⟩ := grants_map.mp h
    exact iff_of_true (hsilent (by rw [(declareConst_moves h).2]; rfl)) id
  | alloc =>
    obtain ⟨_, h, -⟩ := grants_map.mp h
    obtain ⟨_, -, -, hms⟩ := allocRegAs_moves h
    exact iff_of_true (hsilent (by rw [hms]; rfl)) id
  | release v =>
    obtain ⟨_, h, -⟩ := grants_map.mp h
    have hms := release_essence v e
    rw [h] at hms
    refine iff_of_true (hsilent ?_) id
    rw [hms]
    split <;> rfl
  | load v type =>
    obtain ⟨_, h, -⟩ := grants_map.mp h
    exact iff_of_true (loadValue_widens h ht) id
  | call name args =>
    obtain ⟨_, h, -⟩ := grants_map.mp h
    exact iff_of_true (callAs_widens (grants_read_bind.mp h) ht hregs) id
  | callAs name args type =>
    obtain ⟨_, h, -⟩ := grants_map.mp h
    exact iff_of_true (callAs_widens h ht hregs) id
  | print v =>
    obtain ⟨_, h, -⟩ := grants_map.mp h
    obtain ⟨is, hcode, hlines⟩ := print_code h
    refine iff_of_true ?_ id
    rw [hlines, forall_instr_map]
    exact hcode.widens ht (hregs v (List.mem_singleton_self v))
  | printFloat v =>
    obtain ⟨_, h, -⟩ := grants_map.mp h
    exact iff_of_true (printFloat_widens h) id
  | exit code =>
    obtain ⟨_, h, -⟩ := grants_map.mp h
    simp only [Emit.exit, grants_read_bind, grants_instrs] at h
    refine iff_of_true ?_ id
    rw [h, flatMap_lines_instrs, forall_instr_map]
    exact exitCall_widens e.target code
  | rawLine | rawInstr =>
    obtain ⟨_, h, -⟩ := grants_map.mp h
    rw [grants_move.mp h]
    refine iff_of_true (fun i hi => ?_) id
    cases List.mem_singleton.mp hi
  | rawBlock t =>
    obtain ⟨_, h, -⟩ := grants_map.mp h
    rw [grants_moves.mp h]
    refine iff_of_true (fun i hi => ?_) id
    obtain ⟨m, hm, hi⟩ := List.mem_flatMap.mp hi
    obtain ⟨line, -, rfl⟩ := List.mem_map.mp hm
    cases List.mem_singleton.mp hi
  | beginFunction =>
    obtain ⟨_, h, -⟩ := grants_map.mp h
    exact iff_of_true (hsilent (by rw [(beginFunction_moves h).2.2]; rfl)) id
  | declareLocal =>
    obtain ⟨_, h, -⟩ := grants_map.mp h
    exact iff_of_true (hsilent (by rw [(declareLocal_moves h).2]; rfl)) id
  | param f name =>
    obtain ⟨_, h, -⟩ := grants_map.mp h
    exact iff_of_true (param_widens h ht) id
  | returnValue f v =>
    obtain ⟨_, h, -⟩ := grants_map.mp h
    exact iff_of_true (returnValue_widens h) id
  | endFunction =>
    obtain ⟨_, h, -⟩ := grants_map.mp h
    exact iff_of_true (hsilent (by rw [endFunction_moves h]; rfl)) id
  | resetRegs =>
    obtain ⟨_, h, -⟩ := grants_map.mp h
    exact iff_of_true (hsilent (by rw [grants_move.mp h]; rfl)) id
  | finalize =>
    obtain ⟨_, h, -⟩ := grants_map.mp h
    exact iff_of_true (hsilent (by rw [finalize_quiet h]; rfl)) id

/-! ## In a run -/

/-- Whether a line is no instruction that extends a sign. -/
def Line.keepsWidth : Line → Bool
  | instr i => i.keepsWidth
  | label _ | raw _ => true

theorem Builtin.keepsWidth_code (b : Builtin) (t : Target) :
    ∀ l ∈ b.code t, l.keepsWidth = true := by
  cases b <;> cases t <;> decide +kernel

namespace Engine

/-- Sign-extending moves are well formed but for some casts.  Whatever a run asked for before, the
lines of a granted request, and those of the routines that a print adds, extend signs to wider
registers only, unless the request is a cast that overextends; and the lines of every such cast
include one that does not. -/
theorem extensions_widen_iff (t : Target) (strict : Bool) (qs : List Request) (q : Request)
    (a : Reply) (hreply : ((Engine.new t strict).serveAll qs).reply q = .ok a)
    (hregs : ∀ v ∈ q.operands, v.isRegister = true → v.isFloat = false →
      v.name ∈ t.aliases.map Prod.fst) :
    (q.within = true → (((Engine.new t strict).serveAll qs).serve q).body =
        ((Engine.new t strict).serveAll qs).body ++ ((Engine.new t strict).serveAll qs).linesOf q) ∧
      ((∀ i, Line.instr i ∈ ((Engine.new t strict).serveAll qs).linesOf q → i.Widens t) ↔
        ¬ q.overextends t) ∧
      ∀ (b : Builtin) (i : Instr), Line.instr i ∈ b.code t → i.Widens t := by
  have htarget := Engine.regs_target_serveAll (e := Engine.new t strict) rfl qs
  have hsame : ((Engine.new t strict).serveAll qs).target = t := Engine.serveAll_target _ qs
  have hgrant : q.emit.Grants ((Engine.new t strict).serveAll qs) a _ := Prod.ext hreply rfl
  refine ⟨fun hwithin => body_serve (Chronicle.describes_of t strict qs) hwithin,
    ?_, fun b i hi => ?_⟩
  · have hiff := Request.widens_iff hgrant htarget (by rwa [hsame])
    rwa [hsame] at hiff
  · exact Instr.widens_of_keepsWidth (b.keepsWidth_code t _ hi)

/-- A register with a word of 32 bits is not narrower than the register it would be extended to,
while a byte in it is. -/
theorem extensions_widen_iff_long :
    let e := (Engine.new .bits32 true).serveAll [.alloc "int32"]
    let word := Request.cast (.ofRegister "ebx" "int32" true) "int64"
    let byte := Request.cast (.ofRegister "ebx" "int8" true) "int64"
    (e.linesOf word = [.op .movsx [.reg "ecx", .reg "ebx"]] ∧
        ¬ ∀ i, Line.instr i ∈ e.linesOf word → i.Widens .bits32) ∧
      e.linesOf byte = [.op .movsx [.reg "ecx", .reg "bl"]] ∧
        ∀ i, Line.instr i ∈ e.linesOf byte → i.Widens .bits32 := by
  intro e word byte
  have hreply : ∀ q ∈ [word, byte], e.reply q = .ok (.value (.ofRegister "ecx" "int64" true)) := by
    decide +kernel
  have hword := (extensions_widen_iff .bits32 true [.alloc "int32"] word _
    (hreply word (by simp)) (by decide +kernel)).2.1
  have hbyte := (extensions_widen_iff .bits32 true [.alloc "int32"] byte _
    (hreply byte (by simp)) (by decide +kernel)).2.1
  refine ⟨⟨by decide +kernel, ?_⟩, by decide +kernel, hbyte.mpr fun hover => ?_⟩
  · rw [hword, not_not, Request.overextends]
    decide +kernel
  · exact absurd hover.2.2.1 (by decide +kernel)

end Engine

end Assembly
