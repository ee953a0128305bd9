import Assembly.Proofs.Call.Arguments
import Mathlib.Algebra.Ring.Int.Defs

/-!
# The depth of the stack

Code is counted by what it does to the stack: a push and a pop move it by a word, and the
stack pointer is moved by numbers.  A routine that is called gives back what it takes.

Every request inside of a function emits level code: the stack is as deep afterwards as it
was, and in between it is never less deep.  So is the code of whole functions, and a
register that the end of a function takes off the stack is the one that its beginning put
there.
-/

namespace Assembly

open Move Emit

/-- The bytes by which an instruction makes the stack deeper. -/
def Instr.growth (t : Target) (i : Instr) : Int :=
  match i.mnemonic, i.operands with
  | .push, _ => t.wordSize
  | .pop, _ => -t.wordSize
  | .sub, [.reg r, .num n] => if r = t.stackPointer then n else 0
  | .add, [.reg r, .num n] => if r = t.stackPointer then -n else 0
  | _, _ => 0

def Line.growth (t : Target) : Line → Int
  | .instr i => i.growth t
  | _ => 0

/-- How much deeper the stack is after code. -/
def depth (t : Target) (code : List Line) : Int := (code.map (Line.growth t)).sum

/-- The stack is as deep after the code as before it, and never less deep in between. -/
structure Level (t : Target) (code : List Line) : Prop where
  net : depth t code = 0
  floor : ∀ part, part <+: code → 0 ≤ depth t part

theorem Instr.growth_of_overwrites {t : Target} (i : Instr) (h : i.mnemonic.overwrites = true) :
    i.growth t = 0 := by
  obtain ⟨op, operands⟩ := i
  cases op with
  | push | pop | add | sub => cases h
  | _ => rfl

/-- Entered at depth `a`, the code ends at depth `b` and never rises above depth zero. -/
def Climbs (t : Target) : List Line → Int → Int → Prop
  | [], a, b => 0 ≤ a ∧ a = b
  | l :: code, a, b => 0 ≤ a ∧ Climbs t code (a + l.growth t) b

variable {t : Target} {code rest : List Line} {a b c : Int}

namespace Climbs

theorem append (h : Climbs t code a b) (h' : Climbs t rest b c) : Climbs t (code ++ rest) a c := by
  induction code generalizing a with
  | nil =>
    obtain ⟨-, rfl⟩ := h
    exact h'
  | cons l code ih => exact ⟨h.1, ih h.2⟩

theorem step {l : Line} (h : Climbs t [l] a b) (h' : Climbs t rest b c) :
    Climbs t (l :: rest) a c :=
  h.append h'

theorem lift (h : Climbs t code a b) {k : Int} (hk : 0 ≤ k) : Climbs t code (a + k) (b + k) := by
  induction code generalizing a with
  | nil =>
    obtain ⟨ha, rfl⟩ := h
    exact ⟨by omega, rfl⟩
  | cons l code ih =>
    have hrest := ih h.2
    rw [show a + l.growth t + k = a + k + l.growth t by omega] at hrest
    have ha := h.1
    exact ⟨by omega, hrest⟩

theorem depth_eq (h : Climbs t code a b) : a + depth t code = b := by
  induction code generalizing a with
  | nil => simpa [depth] using h.2
  | cons l code ih =>
    have hrest := ih h.2
    rw [show depth t (l :: code) = l.growth t + depth t code from List.sum_cons]
    omega

theorem floor (h : Climbs t code a b) {part : List Line} (hpart : part <+: code) :
    0 ≤ a + depth t part := by
  induction code generalizing a part with
  | nil =>
    rw [List.prefix_nil.mp hpart]
    simpa [depth] using h.1
  | cons l code ih =>
    rcases List.prefix_cons_iff.mp hpart with rfl | ⟨part, rfl, htail⟩
    · simpa [depth] using h.1
    · have hrest := ih h.2 htail
      rw [show depth t (l :: part) = l.growth t + depth t part from List.sum_cons]
      omega

theorem level (h : Climbs t code 0 0) : Level t code := by
  refine ⟨?_, fun part hpart => ?_⟩
  · have hnet := h.depth_eq
    omega
  · have hfloor := h.floor hpart
    omega

theorem flat (h : ∀ l ∈ code, l.growth t = 0) (ha : 0 ≤ a) : Climbs t code a a := by
  induction code with
  | nil => exact ⟨ha, rfl⟩
  | cons l code ih =>
    refine ⟨ha, ?_⟩
    rw [h l List.mem_cons_self, Int.add_zero]
    exact ih fun l' hl' => h l' (List.mem_cons_of_mem l hl')

theorem one {l : Line} (h : a + l.growth t = b) (ha : 0 ≤ a) (hb : 0 ≤ b) : Climbs t [l] a b :=
  ⟨ha, h ▸ hb, h⟩

theorem overwriting {is : List Instr} (h : ∀ i ∈ is, i.mnemonic.overwrites = true) (ha : 0 ≤ a) :
    Climbs t (is.map .instr) a a := by
  refine flat (fun l hl => ?_) ha
  obtain ⟨i, hi, rfl⟩ := List.mem_map.mp hl
  exact i.growth_of_overwrites (h i hi)

theorem overwrites {i : Instr} (h : i.mnemonic.overwrites = true) (ha : 0 ≤ a) :
    Climbs t [.instr i] a a :=
  flat (List.forall_mem_singleton.mpr (i.growth_of_overwrites h)) ha

theorem puts {i : Instr} {reg : Text} (h : i.Puts reg) (ha : 0 ≤ a) : Climbs t [.instr i] a a := by
  obtain ⟨op, d, sources, rfl, hop, -⟩ := h
  exact overwrites hop ha

theorem push (r : Text) (ha : 0 ≤ a) : Climbs t [.instr (.push r)] a (a + t.wordSize) :=
  one rfl ha (by omega)

theorem pop (r : Text) (ha : 0 ≤ a) : Climbs t [.instr (.pop r)] (a + t.wordSize) a :=
  one (Int.add_neg_cancel_right ..) (by omega) ha

theorem reserve (n : Nat) (ha : 0 ≤ a) :
    Climbs t [.op .sub [.reg t.stackPointer, .num n]] a (a + n) := by
  refine one ?_ ha (by omega)
  show a + (if t.stackPointer = t.stackPointer then (n : Int) else 0) = a + n
  rw [if_pos rfl]

theorem drop (n : Nat) (ha : 0 ≤ a) : Climbs t [.instr (t.drop n)] (a + n) a := by
  refine one ?_ (by omega) ha
  show a + n + (if t.stackPointer = t.stackPointer then -(n : Int) else 0) = a
  rw [if_pos rfl]
  omega

theorem pushes (rs : List Text) (ha : 0 ≤ a) :
    Climbs t (rs.map fun r => .instr (.push r)) a (a + (t.wordSize * rs.length : Nat)) := by
  induction rs generalizing a with
  | nil => exact ⟨ha, by simp⟩
  | cons r rs ih =>
    have hlen : t.wordSize * (r :: rs).length = t.wordSize * rs.length + t.wordSize :=
      Nat.mul_succ ..
    have hrest := (push (t := t) r ha).append (ih (by omega))
    rw [show a + t.wordSize + (t.wordSize * rs.length : Nat) =
      a + (t.wordSize * (r :: rs).length : Nat) by omega] at hrest
    exact hrest

theorem pops (rs : List Text) (ha : 0 ≤ a) :
    Climbs t (rs.map fun r => .instr (.pop r)) (a + (t.wordSize * rs.length : Nat)) a := by
  induction rs with
  | nil => exact ⟨by simpa using ha, by simp⟩
  | cons r rs ih =>
    have hlen : t.wordSize * (r :: rs).length = t.wordSize * rs.length + t.wordSize :=
      Nat.mul_succ ..
    have hfirst := (pop (t := t) (a := a + (t.wordSize * rs.length : Nat)) r (by omega)).append ih
    rw [show a + (t.wordSize * rs.length : Nat) + t.wordSize =
      a + (t.wordSize * (r :: rs).length : Nat) by omega] at hfirst
    exact hfirst

end Climbs

/-- Code whose parts from the start never rise above depth zero climbs to its end. -/
theorem climbs_of_floor (h : ∀ part, part <+: code → 0 ≤ a + depth t part) :
    Climbs t code a (a + depth t code) := by
  induction code generalizing a with
  | nil => exact ⟨by simpa [depth] using h [] List.prefix_rfl, by simp [depth]⟩
  | cons l code ih =>
    have hcons : ∀ part, depth t (l :: part) = l.growth t + depth t part := fun _ => List.sum_cons
    refine ⟨by simpa [depth] using h [] List.nil_prefix, ?_⟩
    rw [hcons, ← Int.add_assoc]
    refine ih fun part hpart => ?_
    have hfloor := h (l :: part) (List.prefix_cons_inj l |>.mpr hpart)
    rw [hcons] at hfloor
    omega

namespace Level

theorem climbs (h : Level t code) (ha : 0 ≤ a) : Climbs t code a a := by
  have hzero : Climbs t code 0 (0 + depth t code) :=
    climbs_of_floor fun part hpart => by simpa using h.floor part hpart
  have hlift := hzero.lift ha
  rw [h.net] at hlift
  simpa using hlift

theorem nil (t : Target) : Level t [] := Climbs.level ⟨Int.le_refl 0, rfl⟩

theorem append (h : Level t code) (h' : Level t rest) : Level t (code ++ rest) :=
  ((h.climbs (Int.le_refl 0)).append (h'.climbs (Int.le_refl 0))).level

theorem puts {i : Instr} {reg : Text} (h : i.Puts reg) : Level t [.instr i] :=
  (Climbs.puts h (Int.le_refl 0)).level

end Level

/-! ## Operations -/

section Operations

variable {e : Engine} {ms : List Move} {u : Unit} {v w : Value} {type name : Text}

theorem Climbs.widening (v : Value) (ha : 0 ≤ a) :
    Climbs t ((t.widening v).map .instr) a a := by
  rw [Target.widening]
  split
  · exact .overwrites (t.signExtend_overwrites _) ha
  · exact ⟨ha, rfl⟩

theorem Target.labelLoad_puts (t : Target) (tmp label : Text) : (t.labelLoad tmp label).Puts tmp := by
  rw [Target.labelLoad]
  split
  · exact ⟨_, _, _, rfl, rfl, rfl⟩
  · exact ⟨_, _, _, rfl, rfl, rfl⟩

theorem ArgCode.climbs {f : RegisterFile} {is : List Instr} (h : ArgCode t f v is) (ha : 0 ≤ a) :
    Climbs t (is.map .instr) a (a + t.wordSize) := by
  cases h with
  | float hreg hfloat =>
    exact (Climbs.reserve t.wordSize ha).step (.overwrites (t.floatMove_overwrites v.type) (by omega))
  | register hreg hfloat =>
    rw [List.map_append]
    exact (Climbs.widening v ha).append (.push v.name ha)
  | label label hkind htmp =>
    exact (Climbs.puts (t.labelLoad_puts _ label) ha).step (.push _ ha)
  | loaded hreg hkind hw htmp =>
    exact (Climbs.puts (t.intLoad_puts _ _ _) ha).step (.push _ ha)

/-- Arguments put one word each on the stack, the last one first. -/
theorem climbs_args {f : RegisterFile} {args : List Value} {codes : List (List Instr)}
    (h : List.Forall₂ (ArgCode t f) args codes) (ha : 0 ≤ a) :
    Climbs t (codes.reverse.flatten.map .instr) a (a + (args.length * t.wordSize : Nat)) := by
  induction h with
  | nil => exact ⟨ha, by simp⟩
  | @cons v is args codes hv _ ih =>
    have hlen : (v :: args).length * t.wordSize = args.length * t.wordSize + t.wordSize :=
      Nat.succ_mul ..
    have hfirst := ih.append (hv.climbs (by omega))
    rw [show a + (args.length * t.wordSize : Nat) + t.wordSize =
      a + ((v :: args).length * t.wordSize : Nat) by omega] at hfirst
    simpa using hfirst

theorem climbs_callThenDrop (name : Text) (n : Nat) :
    Climbs t ((t.callThenDrop name n).map .instr) (0 + (n * t.wordSize : Nat)) 0 := by
  rw [Target.callThenDrop]
  refine Climbs.step (.flat (by simp [Line.growth, Instr.growth]) (by omega)) ?_
  by_cases hn : n = 0
  · subst hn
    exact ⟨by simp, by simp⟩
  · rw [if_neg hn]
    exact Climbs.drop (n * t.wordSize) (Int.le_refl 0)

theorem Level.resultMove (reg type : Text) : Level t [.instr (t.resultMove reg type)] := by
  refine (Climbs.overwrites ?_ (Int.le_refl 0)).level
  rw [Target.resultMove]
  split
  · exact t.floatMove_overwrites type
  · rfl

theorem Level.callAs {args : List Value} (h : (callAs name args type).Grants e v ms) :
    Level e.target (ms.flatMap lines) := by
  obtain ⟨codes, hcodes, hlines⟩ := callAs_code h
  rw [hlines, List.map_append, List.map_append]
  have hargs := climbs_args hcodes (Int.le_refl 0)
  exact (hargs.append (climbs_callThenDrop name args.length)).level.append (.resultMove v.name type)

/-- Registers are kept on the stack around the code that overwrites them. -/
theorem Level.enclosed (rs : List Text) (h : Level t code) :
    Level t (rs.map (fun r => Line.instr (.push r)) ++ code ++
      rs.reverse.map (fun r => Line.instr (.pop r))) := by
  have hpush := Climbs.pushes (t := t) rs (Int.le_refl 0)
  have hpop := Climbs.pops (t := t) rs.reverse (Int.le_refl 0)
  rw [List.length_reverse] at hpop
  exact ((hpush.append (h.climbs (by omega))).append hpop).level

theorem Level.printString {s : Text} (h : (printString s).Grants e u ms) :
    Level e.target (ms.flatMap lines) := by
  obtain ⟨label, hms⟩ := printString_moves h
  have hwrite : Level e.target ((e.target.writeCall label (s.length + 1)).map .instr) := by
    refine (Climbs.flat ?_ (Int.le_refl 0)).level
    cases e.target <;> simp [Target.writeCall, Target.writeArgs, Target.trap, Line.growth, Instr.growth]
  rw [← flatMap_lines_essence, hms, flatMap_lines_instrs, List.map_append, List.map_append,
    List.map_map, List.map_map]
  exact hwrite.enclosed _

theorem climbs_singlePush (reg : Text) : Climbs t ((t.singlePush reg).map .instr) 0 (0 + (8 : Nat)) := by
  refine (Climbs.reserve 8 (Int.le_refl 0)).step (.flat ?_ (by omega))
  cases t <;> simp [Line.growth, Instr.growth]

theorem climbs_printFloatCall :
    Climbs t [.instr ⟨.call, [.sym "print_float"]⟩, .instr (t.drop 8)] (0 + (8 : Nat)) 0 := by
  refine Climbs.step (.flat ?_ (by omega)) (.drop 8 (Int.le_refl 0))
  simp [Line.growth, Instr.growth]

theorem Level.printFloat (h : (printFloat v).Grants e u ms) :
    Level e.target (ms.flatMap lines) := by
  rw [← flatMap_lines_essence]
  obtain ⟨reg, hms⟩ | ⟨r, w, type, -, hms⟩ := printFloat_moves h
  · rw [hms, flatMap_lines_instrs, List.map_append]
    exact ((climbs_singlePush reg).append climbs_printFloatCall).level
  · have hcode := ((climbs_singlePush (t := e.target) r).append climbs_printFloatCall).level
    have hall := (Level.puts (e.target.narrow_puts w r type)).append hcode
    rw [hms]
    simpa using hall

theorem Level.printInt (h : (printInt v).Grants e u ms) :
    Level e.target (ms.flatMap lines) := by
  have hcall := climbs_callThenDrop (t := e.target) "print_int" 1
  rw [Nat.one_mul] at hcall
  rw [← flatMap_lines_essence]
  obtain ⟨-, hms⟩ | ⟨-, r, type, -, hms⟩ := printInt_moves h
  · have hword := (Climbs.widening v (Int.le_refl 0)).append (.push (t := e.target) v.name (Int.le_refl 0))
    rw [hms, flatMap_lines_instrs]
    simpa using (hword.append hcall).level
  · have hload := Climbs.puts (t := e.target) (e.target.intLoad_puts v r type) (Int.le_refl 0)
    rw [hms]
    simpa using ((hload.append (.push r (Int.le_refl 0))).append hcall).level

theorem Level.intToFloat (h : (intToFloat v type).Grants e w ms) :
    Level e.target (ms.flatMap lines) := by
  have hconv : (e.target.intConversion type).overwrites = true :=
    e.target.intConversion_overwrites type
  rw [← flatMap_lines_essence]
  obtain ⟨r, -, -, ⟨-, hms⟩ | ⟨-, tmp, -, hms⟩⟩ := intToFloat_moves h
  · have hcode : ∀ i ∈ e.target.regToFloat r v type, i.mnemonic.overwrites = true := by
      intro i hi
      rcases List.mem_append.mp hi with hi | hi
      · split at hi
        · rw [List.mem_singleton.mp hi]
          rfl
        · cases hi
      · rw [List.mem_singleton.mp hi]
        exact hconv
    rw [hms]
    simpa using (Climbs.overwriting hcode (Int.le_refl 0)).level
  · have hcode : ∀ i ∈ e.target.operandToFloat r tmp v type, i.mnemonic.overwrites = true := by
      refine List.forall_mem_cons.mpr ⟨?_, List.forall_mem_singleton.mpr hconv⟩
      split
      · rfl
      · split <;> rfl
    rw [hms]
    simpa using (Climbs.overwriting hcode (Int.le_refl 0)).level

theorem Level.floatToInt (h : (floatToInt v type).Grants e w ms) :
    Level e.target (ms.flatMap lines) := by
  rw [← flatMap_lines_essence]
  obtain ⟨r, -, -, hms | ⟨c, tmp, w, srcType, -, -, hms⟩⟩ := floatToInt_moves h
  · rw [hms]
    exact .puts (e.target.floatToInt_puts r type v.name v.type)
  · have hload : Level e.target [.instr (e.target.load tmp w srcType)] :=
      .puts (e.target.load_puts w tmp srcType)
    rw [hms]
    exact hload.append (.puts (e.target.floatToInt_puts r type tmp srcType))

theorem Level.cast (h : (cast v type).Grants e w ms) : Level e.target (ms.flatMap lines) := by
  simp only [Emit.cast, grants_ite, grants_throw, if_false_left] at h
  obtain ⟨_, ms₁, hcheck, ms₂, hcast, rfl⟩ := grants_bind.mp h.2
  rw [grants_read_bind] at hcast
  have hquiet : ms₁.flatMap lines = [] := by
    rw [← flatMap_lines_essence, checkType_quiet hcheck]
    rfl
  rw [List.flatMap_append, hquiet, List.nil_append, ← e.makeAll_target ms₁]
  split at hcast
  · obtain ⟨r, -, -, hms⟩ := intToInt_moves hcast
    rw [← flatMap_lines_essence, hms]
    exact .puts ((e.makeAll ms₁).target.intToInt_puts _ r type)
  · exact .intToFloat hcast
  · exact .floatToInt hcast
  · obtain ⟨r, w, -, -, hms⟩ := floatToFloat_moves hcast
    rw [← flatMap_lines_essence, hms]
    exact .puts ((e.makeAll ms₁).target.floatToFloat_puts w r type)

theorem Level.exit {n : Int} (h : (exit n).Grants e u ms) : Level e.target (ms.flatMap lines) := by
  simp only [Emit.exit, grants_read_bind, grants_instrs] at h
  rw [h, flatMap_lines_instrs]
  refine (Climbs.flat ?_ (Int.le_refl 0)).level
  cases e.target with
  | bits16 => simp [Target.exitCall, Target.exitArgs, Target.trap, Line.growth, Instr.growth]
  | bits32 =>
    by_cases hn : n = 0
    · simp [Target.exitCall, Target.exitArgs, Target.trap, Line.growth, Instr.growth, hn]
    · simp [Target.exitCall, Target.exitArgs, Target.trap, Line.growth, Instr.growth, hn]
  | bits64 => simp [Target.exitCall, Target.exitArgs, Target.trap, Line.growth, Instr.growth]

theorem Level.returnValue {f : FunctionRef} (h : (returnValue f v).Grants e u ms) :
    Level e.target (ms.flatMap lines) := by
  rw [← flatMap_lines_essence]
  obtain ⟨w, hms | hms⟩ := returnValue_moves h
  · rw [hms]
    exact .puts (e.target.floatReturn_puts w)
  · rw [hms]
    exact .puts (e.target.intReturn_puts w)

theorem Level.of_silent {ns : List Move} (h : essence ms = ns) (hns : ns.flatMap lines = []) :
    Level t (ms.flatMap lines) := by
  rw [← flatMap_lines_essence, h, hns]
  exact .nil t

end Operations

/-- A granted request that emits no text of its caller leaves the stack as it was. -/
theorem Request.level {e : Engine} {q : Request} {r : Reply} (hq : q.within) (hraw : q.raw = false)
    (hr : e.reply q = .ok r) : Level e.target (e.linesOf q) := by
  have h : q.emit.Grants e r (e.movesOf q) := Prod.ext hr rfl
  rw [Engine.linesOf]
  generalize e.movesOf q = ms at h ⊢
  cases q with
  | rawLine | rawInstr | rawBlock => cases hraw
  | beginFunction | endFunction => cases hq
  | declareGlobal name type =>
    obtain ⟨_, h, -⟩ := grants_map.mp h
    exact .of_silent (declareGlobal_moves h).2 rfl
  | declareConst name lit type =>
    obtain ⟨_, h, -⟩ := grants_map.mp h
    exact .of_silent (declareConst_moves h).2 rfl
  | finalize =>
    obtain ⟨_, h, -⟩ := grants_map.mp h
    exact .of_silent (finalize_quiet h) rfl
  | alloc type =>
    obtain ⟨_, h, -⟩ := grants_map.mp h
    obtain ⟨r, -, -, hms⟩ := allocRegAs_moves h
    exact .of_silent hms rfl
  | release v =>
    obtain ⟨_, h, -⟩ := grants_map.mp h
    have hms : ms = (Emit.release v e).2 := by rw [h]
    refine .of_silent (hms ▸ release_essence v e) ?_
    split <;> rfl
  | load v type =>
    obtain ⟨_, h, -⟩ := grants_map.mp h
    obtain ⟨-, -, rfl⟩ | ⟨-, r, w, type', -, -, hms⟩ := loadValue_moves h
    · exact .nil _
    · rw [← flatMap_lines_essence, hms]
      exact .puts (e.target.load_puts w r type')
  | call name args =>
    obtain ⟨_, h, -⟩ := grants_map.mp h
    rw [Emit.call, grants_read_bind] at h
    exact .callAs h
  | callAs name args type =>
    obtain ⟨_, h, -⟩ := grants_map.mp h
    exact .callAs h
  | cast v type =>
    obtain ⟨_, h, -⟩ := grants_map.mp h
    exact .cast h
  | print v =>
    obtain ⟨_, h, -⟩ := grants_map.mp h
    simp only [Emit.print, grants_ite] at h
    split at h
    · exact .printString h
    · split at h
      · exact .printFloat h
      · exact .printInt h
  | printFloat v =>
    obtain ⟨_, h, -⟩ := grants_map.mp h
    exact .printFloat h
  | exit code =>
    obtain ⟨_, h, -⟩ := grants_map.mp h
    exact .exit h
  | declareLocal f name type =>
    obtain ⟨_, h, -⟩ := grants_map.mp h
    exact .of_silent (declareLocal_moves h).2 rfl
  | param f name =>
    obtain ⟨_, h, -⟩ := grants_map.mp h
    obtain ⟨g, -, -, ⟨-, rfl⟩ | ⟨-, r, type, slot, -, -, hms⟩⟩ := param_moves h
    · exact .nil _
    · rw [← flatMap_lines_essence, hms]
      exact .puts (e.target.fetch_puts r type slot)
  | returnValue f v =>
    obtain ⟨_, h, -⟩ := grants_map.mp h
    exact .returnValue h
  | resetRegs =>
    obtain ⟨_, h, -⟩ := grants_map.mp h
    rw [grants_move.mp h]
    exact .nil _

/-! ## Functions -/

namespace Episode

/-- The code of a function from the room for its locals up to the restores. -/
def front (t : Target) (p : Episode) : List Line :=
  p.reservation t ++ p.saves.reverse.map (fun r => Line.op .push [.reg r]) ++ p.emitted

def back (t : Target) : List Line :=
  [.op .mov [.reg t.stackPointer, .reg t.basePointer], .op .pop [.reg t.basePointer], .op .ret []]

theorem block_eq_front (p : Episode) : p.block t =
    p.header t ++ p.front t ++ p.saves.map (fun r => Line.op .pop [.reg r]) ++ back t := by
  simp [block, front, back]

theorem climbs_reservation (p : Episode) : Climbs t (p.reservation t) 0 (p.localSize t) := by
  rw [reservation]
  by_cases h : 0 < p.localSize t
  · rw [if_pos h]
    simpa using Climbs.reserve (t := t) (p.localSize t) (Int.le_refl 0)
  · rw [if_neg h]
    exact ⟨Int.le_refl 0, by omega⟩

theorem depth_front {p : Episode} (h : Level t p.emitted) :
    depth t (p.front t) = p.localSize t + t.wordSize * p.saves.length := by
  have hsaves := Climbs.pushes (t := t) p.saves.reverse (a := p.localSize t) (by omega)
  rw [List.length_reverse] at hsaves
  have hfront : 0 + depth t (p.front t) = p.localSize t + (t.wordSize * p.saves.length : Nat) :=
    ((p.climbs_reservation.append hsaves).append (h.climbs (by omega))).depth_eq
  rw [Int.natCast_mul] at hfront
  omega

/-- Between the save of a register and its restore the code is level. -/
theorem restore_matches {p : Episode} (h : Level t p.emitted) {xs ys : List Text} {r : Text}
    (hsaves : p.saves = xs ++ r :: ys) :
    ∃ between, Level t between ∧ p.block t =
      p.header t ++ p.reservation t ++ ys.reverse.map (fun s => Line.op .push [.reg s]) ++
        Line.op .push [.reg r] :: (between ++ Line.op .pop [.reg r] ::
          (ys.map (fun s => Line.op .pop [.reg s]) ++ back t)) := by
  refine ⟨_, h.enclosed xs.reverse, ?_⟩
  rw [block_eq_front, front, hsaves]
  simp [Line.op, Instr.push, Instr.pop]

end Episode

theorem Engine.reply_of_grantsAll {e : Engine} {pre post : List Request} {q : Request}
    (h : e.grantsAll (pre ++ q :: post)) : ∃ r, (e.serveAll pre).reply q = .ok r := by
  induction pre generalizing e with
  | nil =>
    obtain ⟨hq, -⟩ := (Bool.and_eq_true ..).mp h
    cases hr : e.reply q with
    | error x =>
      rw [hr] at hq
      cases hq
    | ok r => exact ⟨r, hr⟩
  | cons q' pre ih => exact ih ((Bool.and_eq_true ..).mp h).2

/-- In a run without refusals and without text of the caller, every request inside of a function
appends level code.  A function reaches its restores with its locals and its saved registers on
the stack and nothing else, and each restore takes off what the save of its register put on. -/
theorem Engine.stack_neutral (t : Target) (strict : Bool) (qs : List Request)
    (hall : (Engine.new t strict).grantsAll qs) (hraw : ∀ q ∈ qs, q.raw = false) :
    (∀ pre q post, qs = pre ++ q :: post → q.within →
      ∃ lines, (((Engine.new t strict).serveAll pre).serve q).body =
        ((Engine.new t strict).serveAll pre).body ++ lines ∧ Level t lines) ∧
    ((Engine.new t strict).serveAll qs).funcs =
      (Chronicle.of t strict qs).closed.flatMap (Episode.block t) ++
        ((Chronicle.of t strict qs).opened.map (Episode.header t)).getD [] ∧
    ∀ p ∈ (Chronicle.of t strict qs).closed,
      p.block t = p.header t ++ p.front t ++ p.saves.map (fun r => Line.op .pop [.reg r]) ++
        Episode.back t ∧
      depth t (p.front t) = p.localSize t + t.wordSize * p.saves.length ∧
      ∀ xs r ys, p.saves = xs ++ r :: ys → ∃ between, Level t between ∧ p.block t =
        p.header t ++ p.reservation t ++ ys.reverse.map (fun s => Line.op .push [.reg s]) ++
          Line.op .push [.reg r] :: (between ++ Line.op .pop [.reg r] ::
            (ys.map (fun s => Line.op .pop [.reg s]) ++ Episode.back t)) := by
  have hbodies : (Chronicle.of t strict qs).Bodies (Level t) := by
    refine (Chronicle.Bodies.empty _).follow (Chronicle.describes_of t strict []) hall (.nil t) ?_
    intro e q r htarget hmem hq hr code hcode
    have hlines := Request.level hq (hraw q hmem) hr
    rw [htarget] at hlines
    exact hcode.append hlines
  have hfuncs := (Chronicle.describes_of t strict qs).funcs
  rw [Engine.serveAll_target] at hfuncs
  refine ⟨?_, hfuncs, fun p hp => ?_⟩
  · rintro pre q post rfl hq
    obtain ⟨r, hr⟩ := Engine.reply_of_grantsAll hall
    have hlevel := Request.level hq (hraw q (by simp)) hr
    rw [Engine.serveAll_target] at hlevel
    exact ⟨_, Engine.body_serve (Chronicle.describes_of t strict pre) hq, hlevel⟩
  · have hlevel := hbodies.closed p hp
    exact ⟨p.block_eq_front, Episode.depth_front hlevel,
      fun xs r ys hsaves => Episode.restore_matches hlevel hsaves⟩

/-- A function with a local, a parameter, a text written over a register in use, and a call with
arguments of all kinds. -/
theorem Engine.stack_neutral_mixed_call :
    let qs : List Request :=
      [.beginFunction "f" [⟨"n", "int8"⟩], .declareLocal ⟨0, "f"⟩ "x" "int16",
        .param ⟨0, "f"⟩ "n", .print (.ofText "abc"), .alloc "double",
        .callAs "g" [.ofRegister "ebx" "int8" false, .ofRegister "xmm0" "double" true,
          .ofText "abc", .ofSlot "x" "int16" "ebp" 2] "int32",
        .printFloat (.ofRegister "xmm0" "double" true),
        .returnValue ⟨0, "f"⟩ (.ofRegister "ecx" "int32" true), .endFunction ⟨0, "f"⟩]
    (Engine.new .bits32 true).grantsAll qs = true ∧ (∀ q ∈ qs, q.raw = false) ∧
      (Chronicle.of .bits32 true qs).closed.map (·.saves) = ([["ebx", "ecx"]] : List (List Text)) ∧
      ∀ p ∈ (Chronicle.of .bits32 true qs).closed,
        depth .bits32 (p.front .bits32) = p.localSize .bits32 + 4 * p.saves.length := by
  intro qs
  have hall : (Engine.new .bits32 true).grantsAll qs = true := by decide +kernel
  have hraw : ∀ q ∈ qs, q.raw = false := by decide +kernel
  refine ⟨hall, hraw, by decide +kernel, fun p hp => ?_⟩
  exact ((Engine.stack_neutral .bits32 true qs hall hraw).2.2 p hp).2.1

end Assembly
