import Assembly.Proofs.Call.Arguments
import Assembly.Proofs.Engine.Part

/-!
# The code of prints

What a granted print emits.  A text is written in place, between saves of the registers in use;
a number is pushed for the routine of its class, and taken off the stack after the call.
-/

namespace Assembly

open Move Emit

/-- The code that prints a value, by the kind of the value. -/
inductive PrintCode (t : Target) (f : RegisterFile) (v : Value) : List Instr → Prop
  | text (label : Text) (hkind : v.kind = .string)
    (hlabel : ∃ n, label = generatedName "str_print" n) :
    PrintCode t f v ((t.writeClobbers.filter (f.uses .int)).map Instr.push ++
      t.writeCall label (v.text.length + 1) ++
      (t.writeClobbers.filter (f.uses .int)).reverse.map Instr.pop)
  | single (reg : Text) (hkind : v.kind ≠ .string) (hfloat : v.isFloat = true) :
    PrintCode t f v (t.singlePush reg ++ [Instr.mk .call [.sym "print_float"], t.drop 8])
  | narrowed (reg : Text) (w : Value) (type : Text) (hkind : v.kind ≠ .string)
    (hfloat : v.isFloat = true) :
    PrintCode t f v (t.narrow reg w type :: t.singlePush reg ++
      [Instr.mk .call [.sym "print_float"], t.drop 8])
  | register (hreg : v.isRegister = true) (hfloat : v.isFloat = false) :
    PrintCode t f v (t.widening v ++ [Instr.push v.name] ++ t.callThenDrop "print_int" 1)
  | loaded {tmp : Text} (hreg : v.isRegister = false) (hkind : v.kind ≠ .string)
    (hfloat : v.isFloat = false) (htmp : f.Hands .int tmp) :
    PrintCode t f v ([t.intLoad tmp v (t.typeOrWord v.type), Instr.push tmp] ++
      t.callThenDrop "print_int" 1)

variable {e : Engine} {ms : List Move} {u : Unit} {v : Value}

theorem printInt_code (h : (printInt v).Grants e u ms) (hkind : v.kind ≠ .string)
    (hfloat : v.isFloat = false) :
    ∃ is, PrintCode e.target e.regs v is ∧ ms.flatMap lines = is.map .instr := by
  rw [printInt, grants_bind] at h
  obtain ⟨_, ms₁, hneed, _, h, rfl⟩ := h
  have hq := needPrintInt_quiet hneed
  simp only [grants_read_bind, grants_ite, e.makeAll_target] at h
  split at h
  case isTrue hreg =>
    simp only [instrs, grants_moves_bind, grants_moves] at h
    obtain ⟨_, rfl, rfl⟩ := h
    refine ⟨_, .register hreg hfloat, ?_⟩
    rw [← flatMap_lines_essence, essence_append, hq, List.nil_append, flatMap_lines_essence,
      ← List.map_append, flatMap_lines_instrs]
  case isFalse hreg =>
    rw [grants_bind] at h
    obtain ⟨_, ms₂, hpush, _, h, rfl⟩ := h
    obtain ⟨tmp, htmp, hms⟩ := pushThroughTemp_moves hpush
    rw [e.regs_makeAll_of_quiet hq] at htmp
    rw [e.makeAll_target] at hms
    rw [grants_instrs.mp h]
    refine ⟨_, .loaded (by simpa using hreg) hkind hfloat htmp, ?_⟩
    rw [← flatMap_lines_essence, essence_append, essence_append, hq, hms, List.nil_append,
      List.flatMap_append, flatMap_lines_essence, flatMap_lines_instrs, List.map_append]
    rfl

theorem printFloat_code (h : (printFloat v).Grants e u ms) (hkind : v.kind ≠ .string)
    (hfloat : v.isFloat = true) :
    ∃ is, PrintCode e.target e.regs v is ∧ ms.flatMap lines = is.map .instr := by
  obtain ⟨reg, hms⟩ | ⟨reg, w, type, -, hms⟩ := printFloat_moves h
  · refine ⟨_, .single reg hkind hfloat, ?_⟩
    rw [← flatMap_lines_essence, hms, flatMap_lines_instrs]
  · refine ⟨_, .narrowed reg w type hkind hfloat, ?_⟩
    rw [← flatMap_lines_essence, hms, List.flatMap_append, List.flatMap_append, List.flatMap_cons,
      flatMap_lines_instrs, List.map_append]
    simp [Move.lines]

theorem print_code (h : (print v).Grants e u ms) :
    ∃ is, PrintCode e.target e.regs v is ∧ ms.flatMap lines = is.map .instr := by
  simp only [print, grants_ite] at h
  split at h
  case isTrue hkind =>
    refine ⟨_, .text _ hkind ⟨e.printBuffers, rfl⟩, ?_⟩
    rw [← flatMap_lines_essence, printString_named h, flatMap_lines_instrs]
  case isFalse hkind =>
    split at h
    case isTrue hfloat => exact printFloat_code h hkind hfloat
    case isFalse hfloat => exact printInt_code h hkind (by simpa using hfloat)

/-- A register with an integer can always be printed. -/
theorem print_register_granted (e : Engine) (hreg : v.isRegister = true)
    (hfloat : v.isFloat = false) : ∃ ms, (print v).Grants e () ms := by
  have hkind : v.kind ≠ .string := by
    simp only [Value.isRegister, decide_eq_true_eq] at hreg
    simp [hreg]
  have hneed : needPrintInt.Grants e () _ := need_printInt e
  simp only [print, if_neg hkind, hfloat, printInt, hreg, Bool.false_eq_true, if_false, if_true]
  exact ⟨_, grants_bind.mpr ⟨(), _, hneed, _, grants_read_bind.mpr
    (grants_moves_bind.mpr ⟨_, grants_moves.mpr rfl, rfl⟩), rfl⟩⟩

/-! ## In a run -/

namespace Engine

variable (t : Target) (strict : Bool) (qs : List Request)

theorem body_print {r : Reply}
    (h : ((Engine.new t strict).serveAll qs).reply (.print v) = .ok r) :
    ∃ is, PrintCode t ((Engine.new t strict).serveAll qs).regs v is ∧
      (((Engine.new t strict).serveAll qs).serve (.print v)).body =
        ((Engine.new t strict).serveAll qs).body ++ is.map .instr := by
  have hbody := Engine.body_serve (Chronicle.describes_of t strict qs) (q := .print v) rfl
  have hgrant : (Request.print v).emit.Grants _ r _ := Prod.ext h rfl
  obtain ⟨_, hprint, -⟩ := grants_map.mp hgrant
  obtain ⟨is, his, hlines⟩ := print_code hprint
  rw [Engine.serveAll_target] at his
  exact ⟨is, his, hbody.trans (congrArg (_ ++ ·) hlines)⟩

end Engine

end Assembly
