import Assembly.Proofs.Frame.Depth
import Assembly.Proofs.Machine.Width

/-!
# Argument slots

An argument has a slot of one word on the stack.  The size of an access follows the type
instead: a floating register is stored, and a floating parameter is loaded, with the bytes
of its precision.  Code stays inside of the slot unless the type is floating and wider than
a word.
-/

namespace Assembly

open Move Emit

/-- Bytes in memory, from an address on. -/
structure Access where
  address : Address
  bytes : Nat
deriving DecidableEq, Repr

/-- How far an address is above the one in a register. -/
def Address.offset? (base : Text) : Address → Option Int
  | direct b => if b = base then some 0 else none
  | above b n => if b = base then some n else none
  | below b n => if b = base then some (-n) else none

/-- The access stays between two distances from the address in a register. -/
def Access.Within (a : Access) (base : Text) (lo hi : Int) : Prop :=
  ∃ k, a.address.offset? base = some k ∧ lo ≤ k ∧ k + a.bytes ≤ hi

/-- The bytes an operand in memory has: those of its size, or else as many as are moved. -/
def Operand.access? (bytes : Nat) : Operand → Option Access
  | mem a => some ⟨a, bytes⟩
  | sized size (mem a) => some ⟨a, size.bytes⟩
  | _ => none

/-- The width of a register, if the operand is one.  A register outside of the general ones
is a vector register. -/
def Operand.width? : Operand → Option Nat
  | reg r => some (((part? r).map (·.size)).getD 16)
  | _ => none

namespace Instr

/-- The bytes that an instruction moves: those of its precision, or of its register. -/
def width (i : Instr) : Nat :=
  match i.mnemonic with
  | .movss => 4
  | .movsd => 8
  | _ => (i.operands.findSome? Operand.width?).getD 16

def store? (t : Target) (i : Instr) : Option Access :=
  match i.mnemonic with
  | .push | .call => some ⟨.below t.stackPointer t.wordSize, t.wordSize⟩
  | _ => i.operands.head?.bind (Operand.access? i.width)

def load? (t : Target) (i : Instr) : Option Access :=
  match i.mnemonic with
  | .lea => none
  | .pop | .ret => some ⟨.direct t.stackPointer, t.wordSize⟩
  | _ => i.operands[1]?.bind (Operand.access? i.width)

end Instr

/-- The code stores nothing but the bytes between two distances from where the stack pointer
is at its start. -/
def StoresWithin (t : Target) : Int → Int → List Instr → Prop
  | _, _, [] => True
  | lo, hi, i :: is =>
    (∀ a, i.store? t = some a → a.Within t.stackPointer lo hi) ∧
      StoresWithin t (lo + i.growth t) (hi + i.growth t) is

variable {t : Target} {lo hi : Int} {i : Instr} {is js : List Instr} {v : Value}

/-! ## Arguments -/

theorem store?_of_puts {reg : Text} (h : i.Puts reg) : i.store? t = none := by
  obtain ⟨op, d, sources, rfl, hop, -⟩ := h
  cases op with
  | push | call => cases hop
  | _ => rfl

theorem storesWithin_cons_puts {reg : Text} (h : i.Puts reg) :
    StoresWithin t lo hi (i :: is) ↔ StoresWithin t lo hi is := by
  have hgrowth : i.growth t = 0 := by
    obtain ⟨op, d, sources, rfl, hop, -⟩ := h
    exact Instr.growth_of_overwrites _ hop
  rw [StoresWithin, store?_of_puts h, hgrowth, Int.add_zero, Int.add_zero]
  simp

theorem storesWithin_push (r : Text) : StoresWithin t (-t.wordSize) 0 [.push r] := by
  refine ⟨fun a ha => ?_, trivial⟩
  have hpush : (Instr.push r).store? t = some ⟨.below t.stackPointer t.wordSize, t.wordSize⟩ := rfl
  rw [hpush, Option.some.injEq] at ha
  subst ha
  exact ⟨-t.wordSize, if_pos rfl, Int.le_refl _, by dsimp only; omega⟩

theorem width_floatMove {type : Text} (h : TypePolicy.isFloat type = true) (os : List Operand) :
    (Instr.mk (t.floatMove type) os).width = t.typeSize type := by
  rw [Target.floatMove]
  rcases t.typeSize_of_isFloat h with hs | hs
  · rw [hs]
    rfl
  · rw [hs]
    rfl

theorem storesWithin_floatPush (h : v.isFloat = true) :
    StoresWithin t (-t.wordSize) 0 (t.floatPush v) ↔ t.typeSize v.type ≤ t.wordSize := by
  have hroom : (Instr.mk .sub [.reg t.stackPointer, .num t.wordSize]).growth t = t.wordSize :=
    if_pos rfl
  have hstore : (Instr.mk (t.floatMove v.type) [.direct t.stackPointer, .reg v.name]).store? t =
      some ⟨.direct t.stackPointer, t.typeSize v.type⟩ := by
    have hwidth := width_floatMove (t := t) h [.direct t.stackPointer, .reg v.name]
    rw [← hwidth, Target.floatMove]
    split <;> rfl
  rw [Target.floatPush, StoresWithin, StoresWithin, hroom, hstore]
  constructor
  · rintro ⟨-, hwithin, -⟩
    obtain ⟨k, hk, -, hhi⟩ := hwithin _ rfl
    rw [Address.offset?, if_pos rfl, Option.some.injEq] at hk
    dsimp only at hhi
    omega
  · intro hle
    refine ⟨fun a ha => ?_, fun a ha => ?_, trivial⟩
    · cases ha
    · rw [Option.some.injEq] at ha
      subst ha
      exact ⟨0, if_pos rfl, by omega, by dsimp only; omega⟩

/-- An argument is stored into its slot, the word below the stack pointer, unless it is a floating
register of more than a word. -/
theorem ArgCode.storesWithin_iff {f : RegisterFile} (h : ArgCode t f v is) :
    StoresWithin t (-t.wordSize) 0 is ↔
      ¬ (v.isRegister = true ∧ v.isFloat = true ∧ t.wordSize < t.typeSize v.type) := by
  cases h with
  | float hreg hfloat =>
    rw [storesWithin_floatPush hfloat]
    simp [hreg, hfloat]
  | register hreg hfloat =>
    have hpush : StoresWithin t (-t.wordSize) 0 (t.widening v ++ [Instr.push v.name]) := by
      rw [Target.widening]
      split
      · have hputs : (Instr.mk (t.signExtend (t.typeSize v.type))
            [.reg v.name, .reg (t.resize v.name (t.typeSize v.type))]).Puts v.name :=
          ⟨_, _, _, rfl, t.signExtend_overwrites _, rfl⟩
        exact (storesWithin_cons_puts hputs).mpr (storesWithin_push v.name)
      · exact storesWithin_push v.name
    simp [hfloat, hpush]
  | label label hkind htmp =>
    rw [storesWithin_cons_puts (t.labelLoad_puts _ label)]
    simp [Value.isRegister, hkind, storesWithin_push]
  | loaded hreg hkind hw htmp =>
    rw [storesWithin_cons_puts (t.intLoad_puts _ _ _)]
    simp [hreg, storesWithin_push]

/-! ## Parameters -/

theorem load?_fetch {r type : Text} (hr : TypePolicy.isFloat type = false → r ∈ t.intPool)
    (slot : Address) : (t.fetch r type slot).load? t =
      some ⟨slot, if TypePolicy.isFloat type = true then t.typeSize type
        else min (t.typeSize type) t.wordSize⟩ := by
  rw [Target.fetch]
  by_cases hf : TypePolicy.isFloat type = true
  · have hwidth := width_floatMove (t := t) hf [.reg r, .mem slot]
    rw [if_pos hf, if_pos hf, ← hwidth, Target.floatMove]
    split <;> rfl
  · rw [if_neg hf, if_neg hf]
    by_cases hsize : t.typeSize type < t.wordSize
    · have hbytes := t.bytes_operandSize (t.typeSize_cases type)
      rw [if_pos hsize, Nat.min_eq_left (by omega)]
      nth_rewrite 3 [← hbytes]
      rw [Target.signExtend]
      split <;> rfl
    · have hpart := t.part?_intPool r (hr (by simpa using hf))
      rw [if_neg hsize, Nat.min_eq_right (by omega)]
      simp [Instr.load?, Instr.width, Operand.width?, Operand.access?, hpart]

/-- A parameter is loaded from its slot, unless its type is floating and wider than a word. -/
theorem fetch_within_iff {r type : Text} (hr : TypePolicy.isFloat type = false → r ∈ t.intPool)
    (i : Nat) :
    (∃ a, (t.fetch r type (t.paramSlot i)).load? t = some a ∧
        a.Within t.basePointer ((i + 2) * t.wordSize : Nat) ((i + 3) * t.wordSize : Nat)) ↔
      ¬ (TypePolicy.isFloat type = true ∧ t.wordSize < t.typeSize type) := by
  have hoffset : (t.paramSlot i).offset? t.basePointer = some (((i + 2) * t.wordSize : Nat) : Int) :=
    if_pos rfl
  have hnext : (i + 3) * t.wordSize = (i + 2) * t.wordSize + t.wordSize := Nat.succ_mul ..
  rw [load?_fetch hr]
  constructor
  · rintro ⟨a, ha, k, hk, -, hhi⟩ ⟨hf, hlt⟩
    rw [Option.some.injEq] at ha
    subst ha
    rw [hoffset, Option.some.injEq] at hk
    rw [if_pos hf] at hhi
    dsimp only at hhi
    omega
  · intro hfits
    refine ⟨_, rfl, _, hoffset, Int.le_refl _, ?_⟩
    dsimp only
    split
    case isTrue hf =>
      have hle : ¬ t.wordSize < t.typeSize type := fun hlt => hfits ⟨hf, hlt⟩
      omega
    case isFalse => omega

/-! ## Calls and functions -/

/-- Relative to the stack pointer at the call, the slot of an argument is the word at its place; an
argument's code is entered with the stack as deep as the arguments behind it have made it. -/
theorem depth_from_arg {f : RegisterFile} {args : List Value} {codes : List (List Instr)}
    (h : List.Forall₂ (ArgCode t f) args codes) {i : Nat} (hi : i < args.length) :
    depth t ((codes.take (i + 1)).reverse.flatten.map .instr) = ((i + 1) * t.wordSize : Nat) := by
  have htake := List.forall₂_take (i + 1) h
  have hdepth := (climbs_args htake (Int.le_refl 0)).depth_eq
  rw [List.length_take, Nat.min_eq_left (by omega)] at hdepth
  omega

/-- Every store of an argument stays in the slot of the argument, and every load of a parameter in
the slot of the parameter, except where the type is floating and wider than a word. -/
theorem Engine.slots_kept_iff (t : Target) (strict : Bool) (qs : List Request) :
    let e := (Engine.new t strict).serveAll qs
    (∀ name args type v, e.reply (.callAs name args type) = .ok (.value v) →
      ∃ codes : List (List Instr), codes.length = args.length ∧
        (e.serve (.callAs name args type)).body = e.body ++
          (codes.reverse.flatten ++ t.callThenDrop name args.length ++
            [t.resultMove v.name type]).map .instr ∧
        ∀ i arg is, args[i]? = some arg → codes[i]? = some is →
          let rest := depth t ((codes.take (i + 1)).reverse.flatten.map .instr)
          StoresWithin t ((i * t.wordSize : Nat) - rest) (((i + 1) * t.wordSize : Nat) - rest) is ↔
            ¬ (arg.isRegister = true ∧ arg.isFloat = true ∧ t.wordSize < t.typeSize arg.type)) ∧
    ∀ f name v g i p, e.current = some g → g.cached.get? name = none →
      g.params.zipIdx.find? (·.1.name = name) = some (p, i) →
      e.reply (.param f name) = .ok (.value v) →
      ∃ ins : Instr, (e.serve (.param f name)).body = e.body ++ [Line.instr ins] ∧
        ((∃ a, ins.load? t = some a ∧
            a.Within t.basePointer ((i + 2) * t.wordSize : Nat) ((i + 3) * t.wordSize : Nat)) ↔
          ¬ (TypePolicy.isFloat p.type = true ∧ t.wordSize < t.typeSize p.type)) := by
  intro e
  refine ⟨?_, ?_⟩
  · intro name args type v hreply
    obtain ⟨codes, hcodes, hbody⟩ := Engine.body_callAs t strict qs hreply
    refine ⟨codes, hcodes.length_eq.symm, hbody, ?_⟩
    intro i arg is harg his rest
    obtain ⟨hi, rfl⟩ := List.getElem?_eq_some_iff.mp harg
    obtain ⟨hi', rfl⟩ := List.getElem?_eq_some_iff.mp his
    have hcode : ArgCode t e.regs args[i] codes[i] := hcodes.get hi hi'
    have hrest : rest = ((i + 1) * t.wordSize : Nat) := depth_from_arg hcodes hi
    have hnext : (i + 1) * t.wordSize = i * t.wordSize + t.wordSize := Nat.succ_mul ..
    have hlo : ((i * t.wordSize : Nat) : Int) - rest = -t.wordSize := by omega
    have hhi : (((i + 1) * t.wordSize : Nat) : Int) - rest = 0 := by omega
    rw [hlo, hhi]
    exact hcode.storesWithin_iff
  · intro f name v g i p hcur hnew hfind hreply
    obtain ⟨p', i', hfind', hpool, hbody⟩ := Engine.body_param t strict qs hreply hcur hnew
    rw [hfind, Option.some.injEq, Prod.mk.injEq] at hfind'
    obtain ⟨rfl, rfl⟩ := hfind'
    exact ⟨_, hbody, fetch_within_iff hpool i⟩

/-- A double in a register does not fit the slot of an argument on the narrow target. -/
theorem Engine.slots_kept_iff_double :
    let e := (Engine.new .bits32 true).serveAll [.alloc "double"]
    let args : List Value := [.ofRegister "xmm0" "double" true, .ofIntAs 7 "int32"]
    ∃ v, e.reply (.callAs "g" args "int32") = .ok (.value v) ∧
      ∃ codes : List (List Instr), codes.length = 2 ∧
        (e.serve (.callAs "g" args "int32")).body = e.body ++
          (codes.reverse.flatten ++ Target.callThenDrop .bits32 "g" 2 ++
            [Target.resultMove .bits32 v.name "int32"]).map .instr ∧
        ∀ is, codes[0]? = some is → ¬ StoresWithin .bits32
          (-depth .bits32 ((codes.take 1).reverse.flatten.map .instr))
          (4 - depth .bits32 ((codes.take 1).reverse.flatten.map .instr)) is := by
  intro e args
  have hreply : e.reply (.callAs "g" args "int32") = .ok (.value (.ofRegister "ebx" "int32" true)) := by
    decide +kernel
  obtain ⟨codes, hlen, hbody, hstores⟩ :=
    (Engine.slots_kept_iff .bits32 true [.alloc "double"]).1 "g" args "int32" _ hreply
  refine ⟨_, hreply, codes, hlen, hbody, fun is his hin => ?_⟩
  have hiff := hstores 0 _ is rfl his
  refine hiff.mp ?_ (by decide +kernel)
  rw [show ((0 * Target.wordSize .bits32 : Nat) : Int) = 0 from rfl, Int.zero_sub]
  exact hin

end Assembly
