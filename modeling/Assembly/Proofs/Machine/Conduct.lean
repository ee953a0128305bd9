import Assembly.Engine.Request
import Assembly.Proofs.Machine.Provenance

/-!
# How code treats registers

Code may overwrite registers that it was handed, and registers that have nothing to do with
the pool.  A few operations overwrite other registers as well: they touch them.
`Conduct` says of a list of instructions that it overwrites nothing else, and what running
it loses.
-/

namespace Assembly

open Machine

/-- The instruction puts its result into the register with this name, or a part of it. -/
def Instr.Puts (i : Instr) (reg : Text) : Prop :=
  ∃ op d sources, i = ⟨op, .reg d :: sources⟩ ∧ op.overwrites ∧ physical d = physical reg

/-- Code may overwrite the register: it carries no stack address, and if it is one of the
pool, its owner is known. -/
structure Lent (t : Target) (owned : Text → Prop) (reg : Text) : Prop where
  stack : physical reg ≠ physical t.stackPointer
  base : physical reg ≠ physical t.basePointer
  owned : ∀ s ∈ t.intPool, physical reg = physical s → owned s

/-- The instructions overwrite registers that are lent to them, and the touched ones.  They
run, unless they touch the stack pointer, and then a touched register is lost or has an
owner. -/
structure Conduct (t : Target) (owned : Text → Prop) (touched : List Text) (is : List Instr) :
    Prop where
  written : ∀ d ∈ is.flatMap Instr.written, ∀ s ∈ t.intPool, physical d = physical s →
    owned s ∨ ∃ x ∈ touched, physical x = physical s
  touches : ∀ x ∈ touched, ∃ d ∈ is.flatMap Instr.written, physical d = physical x
  runs : (∀ x ∈ touched, physical x ≠ physical t.stackPointer) → ∃ gone, Executes t is gone ∧
    (gone (physical t.basePointer) → ∃ x ∈ touched, physical x = physical t.basePointer) ∧
    ∀ x ∈ touched, gone (physical x) ∨ ∃ s ∈ t.intPool, owned s ∧ physical s = physical x
  stuck : (∃ x ∈ touched, physical x = physical t.stackPointer) → Stuck t is

variable {t : Target} {owned owned' : Text → Prop} {touched touched' : List Text}
  {is js : List Instr} {i : Instr} {reg : Text}

theorem written_of_overwrites {op : Mnemonic} {d : Text} {sources : List Operand}
    (hop : op.overwrites) : (⟨op, .reg d :: sources⟩ : Instr).written = [d] := by
  cases op with
  | mov | movsx | movsxd | lea | xor | movss | movsd | cvtsi2ss | cvtsi2sd | cvtss2si | cvtsd2si
  | cvtss2sd | cvtsd2ss => rfl
  | _ => cases hop

/-! ## Putting code together -/

namespace Conduct

theorem of_executes {gone : Text → Prop} (h : ∀ d ∈ is.flatMap Instr.written, Lent t owned d)
    (hrun : Executes t is gone) (hbase : ¬ gone (physical t.basePointer)) :
    Conduct t owned [] is := by
  refine ⟨?_, ?_, fun _ => ⟨gone, hrun, fun hb => absurd hb hbase, ?_⟩, ?_⟩
  · intro d hd s hs hds
    exact .inl ((h d hd).owned s hs hds)
  · intro x hx
    cases hx
  · intro x hx
    cases hx
  · rintro ⟨x, hx, -⟩
    cases hx

theorem nil (t : Target) (owned : Text → Prop) : Conduct t owned [] [] :=
  of_executes (List.forall_mem_nil _) (Executes.nil t) id

theorem mono (h : Conduct t owned touched is) (himp : ∀ s, owned s → owned' s) :
    Conduct t owned' touched is := by
  refine ⟨?_, h.touches, fun hsp => ?_, h.stuck⟩
  · intro d hd s hs hds
    exact (h.written d hd s hs hds).imp_left (himp s)
  · obtain ⟨gone, hrun, hbase, hlost⟩ := h.runs hsp
    refine ⟨gone, hrun, hbase, fun x hx => (hlost x hx).imp_right ?_⟩
    rintro ⟨s, hs, ho, hsx⟩
    exact ⟨s, hs, himp s ho, hsx⟩

theorem append (h : Conduct t owned touched is) (h' : Conduct t owned touched' js) :
    Conduct t owned (touched ++ touched') (is ++ js) := by
  refine ⟨?_, ?_, fun hsp => ?_, ?_⟩
  · intro d hd s hs hds
    rw [List.flatMap_append] at hd
    rcases List.mem_append.mp hd with hd | hd
    · refine (h.written d hd s hs hds).imp_right ?_
      rintro ⟨x, hx, hxs⟩
      exact ⟨x, List.mem_append_left _ hx, hxs⟩
    · refine (h'.written d hd s hs hds).imp_right ?_
      rintro ⟨x, hx, hxs⟩
      exact ⟨x, List.mem_append_right _ hx, hxs⟩
  · intro x hx
    rw [List.flatMap_append]
    rcases List.mem_append.mp hx with hx | hx
    · obtain ⟨d, hd, hdx⟩ := h.touches x hx
      exact ⟨d, List.mem_append_left _ hd, hdx⟩
    · obtain ⟨d, hd, hdx⟩ := h'.touches x hx
      exact ⟨d, List.mem_append_right _ hd, hdx⟩
  · obtain ⟨gone, hrun, hbase, hlost⟩ := h.runs fun x hx => hsp x (List.mem_append_left _ hx)
    obtain ⟨gone', hrun', hbase', hlost'⟩ := h'.runs fun x hx => hsp x (List.mem_append_right _ hx)
    refine ⟨_, hrun.append hrun', ?_, ?_⟩
    · rintro (hb | hb)
      · obtain ⟨x, hx, hxb⟩ := hbase hb
        exact ⟨x, List.mem_append_left _ hx, hxb⟩
      · obtain ⟨x, hx, hxb⟩ := hbase' hb
        exact ⟨x, List.mem_append_right _ hx, hxb⟩
    · intro x hx
      rcases List.mem_append.mp hx with hx | hx
      · exact (hlost x hx).imp_left .inl
      · exact (hlost' x hx).imp_left .inr
  · -- If the first part is not stuck, it runs through to the second.
    rintro ⟨x, hx, hxsp⟩
    by_cases hfirst : ∃ y ∈ touched, physical y = physical t.stackPointer
    · exact (h.stuck hfirst).append_left js
    · have hclear : ∀ y ∈ touched, physical y ≠ physical t.stackPointer :=
        fun y hy hysp => hfirst ⟨y, hy, hysp⟩
      obtain ⟨gone, hrun, -, -⟩ := h.runs hclear
      rcases List.mem_append.mp hx with hx | hx
      · exact absurd hxsp (hclear x hx)
      · exact .append_right hrun (h'.stuck ⟨x, hx, hxsp⟩)

theorem put (h : i.Puts reg) (hl : Lent t owned reg) : Conduct t owned [] [i] := by
  obtain ⟨op, d, sources, rfl, hop, hd⟩ := h
  have hlent : Lent t owned d := ⟨hd ▸ hl.stack, hd ▸ hl.base, hd ▸ hl.owned⟩
  refine of_executes ?_ (Executes.overwrite sources hop hlent.stack (.inl hlent.base)) ?_
  · intro x hx
    rw [List.flatMap_singleton, written_of_overwrites hop, List.mem_singleton] at hx
    exact hx ▸ hlent
  · exact fun hb => hlent.base hb.symm

/-- An instruction that overwrites a register it was not lent, other than by a move. -/
theorem touch {op : Mnemonic} {d : Text} (sources : List Operand) (hop : op.overwrites)
    (hmov : op ≠ .mov) (hd : physical d = physical reg) :
    Conduct t owned [reg] [⟨op, .reg d :: sources⟩] := by
  refine ⟨?_, ?_, fun hsp => ?_, ?_⟩
  · intro x hx s hs hxs
    rw [List.flatMap_singleton, written_of_overwrites hop, List.mem_singleton] at hx
    exact .inr ⟨reg, List.mem_singleton_self _, by rw [← hd, ← hx, hxs]⟩
  · intro x hx
    rw [List.mem_singleton] at hx
    exact ⟨d, by simp [written_of_overwrites hop], hx ▸ hd⟩
  · have hreg := hsp reg (List.mem_singleton_self _)
    refine ⟨_, Executes.overwrite sources hop (hd ▸ hreg) (.inr hmov), ?_, ?_⟩
    · intro hb
      exact ⟨reg, List.mem_singleton_self _, by rw [hb, hd]⟩
    · intro x hx
      rw [List.mem_singleton] at hx
      exact .inl (by rw [hx, hd])
  · rintro ⟨x, hx, hxsp⟩
    rw [List.mem_singleton] at hx
    exact .overwrite hop hmov (by rw [hd, ← hx, hxsp])

end Conduct

/-! ## The instructions that the targets choose -/

namespace Target

variable (t : Target) (v : Value) (dst type : Text) (size : Nat)

theorem signExtend_overwrites : (t.signExtend size).overwrites := by
  rw [signExtend]
  split <;> rfl

theorem signExtend_ne_mov : t.signExtend size ≠ .mov := by
  rw [signExtend]
  split <;> simp

theorem floatMove_overwrites : (t.floatMove type).overwrites := by
  rw [floatMove]
  split <;> rfl

theorem intConversion_overwrites : (t.intConversion type).overwrites := by
  rw [intConversion]
  split <;> rfl

theorem intLoad_puts : (t.intLoad dst v type).Puts dst := by
  rw [intLoad]
  split
  · exact ⟨_, _, _, rfl, rfl, rfl⟩
  · split
    · exact ⟨_, _, _, rfl, t.signExtend_overwrites _, rfl⟩
    · exact ⟨_, _, _, rfl, rfl, t.physical_resize dst _⟩

theorem load_puts : (t.load dst v type).Puts dst := by
  rw [load]
  split
  · exact ⟨_, _, _, rfl, t.floatMove_overwrites type, rfl⟩
  · exact t.intLoad_puts v dst type

theorem intToInt_puts : (t.intToInt dst v type).Puts dst := by
  rw [intToInt]
  split
  · exact ⟨_, _, _, rfl, rfl, t.physical_resize dst _⟩
  · split
    · split
      · exact ⟨_, _, _, rfl, t.signExtend_overwrites _, rfl⟩
      · exact ⟨_, _, _, rfl, t.signExtend_overwrites _, rfl⟩
    · split
      · exact ⟨_, _, _, rfl, rfl, t.physical_resize dst _⟩
      · exact ⟨_, _, _, rfl, rfl, t.physical_resize dst _⟩

theorem floatToInt_puts (src srcType : Text) : (t.floatToInt dst src srcType type).Puts dst := by
  refine ⟨_, _, _, rfl, ?_, ?_⟩
  · split <;> rfl
  · split
    · exact t.physical_resize dst 4
    · rfl

theorem floatToFloat_puts : (t.floatToFloat dst v type).Puts dst := by
  rw [floatToFloat]
  split
  · exact ⟨_, _, _, rfl, rfl, rfl⟩
  · split
    · exact ⟨_, _, _, rfl, rfl, rfl⟩
    · exact ⟨_, _, _, rfl, t.floatMove_overwrites type, rfl⟩

theorem narrow_puts : (t.narrow dst v type).Puts dst := by
  rw [narrow]
  split
  · exact ⟨_, _, _, rfl, rfl, rfl⟩
  · exact ⟨_, _, _, rfl, rfl, rfl⟩

theorem fetch_puts (slot : Address) : (t.fetch dst type slot).Puts dst := by
  rw [fetch]
  split
  · exact ⟨_, _, _, rfl, t.floatMove_overwrites type, rfl⟩
  · split
    · exact ⟨_, _, _, rfl, t.signExtend_overwrites _, rfl⟩
    · exact ⟨_, _, _, rfl, rfl, rfl⟩

theorem intReturn_puts : (t.intReturn v).Puts t.returnReg := by
  rw [intReturn]
  split
  · exact ⟨_, _, _, rfl, t.signExtend_overwrites _, rfl⟩
  · exact ⟨_, _, _, rfl, rfl, rfl⟩

theorem floatReturn_puts : (t.floatReturn v).Puts t.floatReturnReg :=
  ⟨_, _, _, rfl, t.floatMove_overwrites v.type, rfl⟩

theorem lent_returnReg (owned : Text → Prop) :
    Lent t owned t.returnReg ∧ Lent t owned t.floatReturnReg := by
  have h : (physical t.returnReg ≠ physical t.stackPointer ∧
      physical t.returnReg ≠ physical t.basePointer ∧
      ∀ s ∈ t.intPool, physical t.returnReg ≠ physical s) ∧
      physical t.floatReturnReg ≠ physical t.stackPointer ∧
      physical t.floatReturnReg ≠ physical t.basePointer ∧
      ∀ s ∈ t.intPool, physical t.floatReturnReg ≠ physical s := by
    cases t <;> decide
  obtain ⟨⟨h₁, h₂, h₃⟩, h₄, h₅, h₆⟩ := h
  exact ⟨⟨h₁, h₂, fun s hs heq => absurd heq (h₃ s hs)⟩,
    ⟨h₄, h₅, fun s hs heq => absurd heq (h₆ s hs)⟩⟩

end Target

/-! ## Operands that are widened in place -/

namespace Conduct

theorem widening (t : Target) (owned : Text → Prop) (v : Value) :
    Conduct t owned (if t.typeSize v.type < t.wordSize then [v.name] else []) (t.widening v) := by
  rw [Target.widening]
  split
  · exact .touch _ (t.signExtend_overwrites _) (t.signExtend_ne_mov _) rfl
  · exact .nil t owned

theorem regToFloat (v : Value) (type : Text) (hl : Lent t owned reg) :
    Conduct t owned (if t.typeSize v.type < 4 then [v.name] else []) (t.regToFloat reg v type) := by
  have hconv : Conduct t owned [] [.mk (t.intConversion type)
      [.reg reg, .reg (t.resize v.name (t.readSize v))]] :=
    .put ⟨_, _, _, rfl, t.intConversion_overwrites type, rfl⟩ hl
  rw [Target.regToFloat]
  split
  · have hwiden : Conduct t owned [v.name] [.mk .movsx [.reg (t.resize v.name (t.readSize v)),
        .reg (t.resize v.name (t.typeSize v.type))]] :=
      .touch _ rfl (by simp) (t.physical_resize v.name _)
    exact hwiden.append hconv
  · exact hconv

theorem operandToFloat (v : Value) (type : Text) {tmp : Text} (hl : Lent t owned reg)
    (htmp : Lent t owned tmp) : Conduct t owned [] (t.operandToFloat reg tmp v type) := by
  have hconv : Conduct t owned [] [.mk (t.intConversion type)
      [.reg reg, .reg (t.resize tmp (t.readSize v))]] :=
    .put ⟨_, _, _, rfl, t.intConversion_overwrites type, rfl⟩ hl
  refine (Conduct.put ?_ htmp).append hconv
  split
  · exact ⟨_, _, _, rfl, rfl, t.physical_resize tmp _⟩
  · split
    · exact ⟨_, _, _, rfl, rfl, t.physical_resize tmp _⟩
    · exact ⟨_, _, _, rfl, rfl, t.physical_resize tmp _⟩

end Conduct

/-! ## Calls of routines -/

namespace Machine

theorem loses_forget (t : Target) (m : Machine) :
    Loses t (· ≠ physical t.basePointer) m (m.forget t) := by
  refine ⟨rfl, fun r hr => ?_, fun r hr s => ?_, fun h => absurd rfl h⟩
  · rw [regs_forget, if_pos (Decidable.not_not.mp hr)]
  · rw [regs_forget, if_neg hr]
    simp

namespace Executes

theorem callWithWord (t : Target) (reg name : Text) :
    Executes t (.push reg :: t.callThenDrop name 1) (· ≠ physical t.basePointer) := by
  intro m
  have hdrop : ∀ c, dropCells t (1 * t.wordSize) (.word c :: m.stack) = some m.stack := by
    intro c
    cases t <;> cases m.stack <;> simp [dropCells, Cell.size, Target.wordSize]
  refine ⟨m.forget t, ?_, loses_forget t m⟩
  show (exec t m (.push reg) >>= fun m₁ => exec t m₁ ⟨.call, [.sym name]⟩ >>= fun m₂ =>
    exec t m₂ (t.drop (1 * t.wordSize)) >>= pure) = some (m.forget t)
  simp only [exec_push, exec_call, Target.drop, Option.bind_eq_bind, Option.bind_some, exec_add,
    drop, push, forget, hdrop, Option.map_some]
  rfl

/-- Room is made on the stack and a single-precision number stored in it.  The narrow
target addresses the stack through a register of its own. -/
theorem run_singlePush (t : Target) (reg : Text) (m : Machine) :
    ∃ m₁, (t.singlePush reg).foldlM (exec t) m = some m₁ ∧ m₁.stack = .room 8 :: m.stack ∧
      m₁.regs (physical t.basePointer) = m.regs (physical t.basePointer) := by
  have hroom : ∀ t : Target, (m.push (.room 8)).storesInRoom t t.stackPointer 4 := by
    intro t
    simp [storesInRoom, push]
  have hsub : ∀ t : Target, exec t m ⟨.sub, [.reg t.stackPointer, .num 8]⟩ =
      some (m.push (.room 8)) := fun t => exec_sub t m 8
  cases t with
  | bits32 | bits64 =>
    refine ⟨m.push (.room 8), ?_, rfl, rfl⟩
    rw [Target.singlePush, List.foldlM_cons, hsub, Option.bind_eq_bind, Option.bind_some,
      List.foldlM_cons, exec_store, if_pos (hroom _)]
    rfl
  | bits16 =>
    have hsi : physical "si" ≠ physical Target.bits16.stackPointer ∧
        physical Target.bits16.basePointer ≠ physical "si" := by decide
    let m₁ := (m.push (.room 8)).set "si" (.stack ((m.push (.room 8)).depth .bits16))
    have hmov : exec .bits16 (m.push (.room 8)) ⟨.mov, [.reg "si", .reg "sp"]⟩ = some m₁ := by
      rw [exec_mov, if_neg (by decide), if_pos (by decide), write, if_neg hsi.1]
    have hstore : m₁.storesInRoom .bits16 "si" 4 := by
      have hregs : m₁.regs (physical "si") = .stack (m₁.depth .bits16) :=
        (regs_set _ _ _ _).trans (if_pos rfl)
      have hstack : m₁.stack = .room 8 :: m.stack := rfl
      simp [storesInRoom, hregs, hstack]
    refine ⟨m₁, ?_, rfl, (regs_set _ _ _ _).trans (if_neg hsi.2)⟩
    rw [Target.singlePush, List.foldlM_cons, hsub, Option.bind_eq_bind, Option.bind_some,
      List.foldlM_cons, hmov, Option.bind_eq_bind, Option.bind_some, List.foldlM_cons, exec_store,
      if_pos hstore]
    rfl

/-- A single-precision number is put on the stack for a routine and dropped after it. -/
theorem callWithSingle (t : Target) (reg name : Text) :
    Executes t (t.singlePush reg ++ [.mk .call [.sym name], t.drop 8])
      (· ≠ physical t.basePointer) := by
  intro m
  obtain ⟨m₁, hpush, hstack, hbase⟩ := run_singlePush t reg m
  have hdrop : dropCells t 8 (m₁.forget t).stack = some m.stack := by
    have hforget : (m₁.forget t).stack = .room 8 :: m.stack := hstack
    rw [hforget]
    cases m.stack <;> simp [dropCells, Cell.size]
  have hregs : (m₁.forget t).regs = (m.forget t).regs := by
    funext r
    rw [regs_forget, regs_forget]
    split
    case isTrue hr => rw [hr, hbase]
    case isFalse => rfl
  refine ⟨m.forget t, ?_, loses_forget t m⟩
  rw [List.foldlM_append, hpush]
  show (exec t m₁ ⟨.call, [.sym name]⟩ >>= fun m₂ =>
    exec t m₂ ⟨.add, [.reg t.stackPointer, .num (8 : Nat)]⟩ >>= pure) = _
  simp only [exec_call, Option.bind_eq_bind, Option.bind_some, exec_add, drop, hdrop, hregs]
  rfl

end Executes

end Machine

theorem Conduct.callWithWord (t : Target) (owned : Text → Prop) (r name : Text) :
    Conduct t owned [] (.push r :: t.callThenDrop name 1) :=
  .of_executes (List.forall_mem_nil _) (Machine.Executes.callWithWord t r name) fun hb => hb rfl

theorem Conduct.callWithSingle (t : Target) (owned : Text → Prop) (r name : Text) :
    Conduct t owned [] (t.singlePush r ++ [.mk .call [.sym name], t.drop 8]) := by
  refine .of_executes ?_ (Machine.Executes.callWithSingle t r name) fun hb => hb rfl
  intro d hd
  cases t with
  | bits32 | bits64 => cases hd
  | bits16 =>
    have hd : d = "si" := List.mem_singleton.mp hd
    have hsi : physical "si" ≠ physical Target.bits16.stackPointer ∧
        physical "si" ≠ physical Target.bits16.basePointer ∧
        ∀ s ∈ Target.bits16.intPool, physical "si" ≠ physical s := by decide
    rw [hd]
    exact ⟨hsi.1, hsi.2.1, fun s hs heq => absurd heq (hsi.2.2 s hs)⟩

/-! ## System calls -/

def Instr.dest? (i : Instr) : Option Text :=
  match i.operands with
  | .reg d :: _ => if i.mnemonic.overwrites then some d else none
  | _ => none

theorem Instr.dest?_eq_some {d : Text} (h : i.dest? = some d) :
    ∃ op sources, i = ⟨op, .reg d :: sources⟩ ∧ op.overwrites := by
  obtain ⟨op, operands⟩ := i
  simp only [Instr.dest?] at h
  split at h
  · split at h
    case isTrue hop =>
      cases h
      exact ⟨op, _, rfl, hop⟩
    case isFalse => cases h
  · cases h

theorem Instr.written_of_dest? {d : Text} (h : i.dest? = some d) : i.written = [d] := by
  obtain ⟨op, sources, rfl, hop⟩ := Instr.dest?_eq_some h
  exact written_of_overwrites hop

namespace Machine.Executes

/-- Instructions that put their results into registers that carry no stack address. -/
theorem overwrites {dests : List Text} (h : is.map Instr.dest? = dests.map some)
    (hside : ∀ d ∈ dests, physical d ≠ physical t.stackPointer ∧
      physical d ≠ physical t.basePointer) :
    Executes t is fun r => ∃ d ∈ dests, r = physical d := by
  induction is generalizing dests with
  | nil =>
    have hnil : dests = [] := by simpa using h.symm
    exact (Executes.nil t).congr fun r => by simp [hnil]
  | cons i is ih =>
    cases dests with
    | nil => cases h
    | cons d dests =>
      rw [List.map_cons, List.map_cons, List.cons.injEq] at h
      obtain ⟨op, sources, rfl, hop⟩ := Instr.dest?_eq_some h.1
      obtain ⟨hsp, hbp⟩ := hside d List.mem_cons_self
      have hrest := ih h.2 fun x hx => hside x (List.mem_cons_of_mem _ hx)
      exact ((Executes.overwrite sources hop hsp (.inl hbp)).append hrest).congr fun r => by simp

theorem basePointer_not_trapped (t : Target) :
    ¬ (physical t.basePointer = physical t.returnReg ∨
      ∃ d ∈ t.trap.written, physical t.basePointer = physical d) := by
  cases t <;> decide

/-- A system call overwrites the return register besides the ones it is known for. -/
theorem trap (t : Target) :
    Executes t [t.trap] fun r => r = physical t.returnReg ∨ ∃ d ∈ t.trap.written, r = physical d := by
  have hbase := basePointer_not_trapped t
  intro m
  cases t with
  | bits16 | bits32 =>
    refine ⟨m.set _ .other, rfl, rfl, ?_, ?_, fun hb => absurd hb hbase⟩
    · intro r hr
      exact (regs_set _ _ _ _).trans (if_neg fun h => hr (.inl h))
    · intro r hr s
      rcases hr with hr | ⟨d, hd, -⟩
      · rw [regs_set, if_pos hr]
        simp
      · cases hd
  | bits64 =>
    refine ⟨((m.set "rax" .other).set "rcx" .other).set "r11" .other, rfl, rfl, ?_, ?_,
      fun hb => absurd hb hbase⟩
    · intro r hr
      have hrcx : r ≠ physical "rcx" := fun h => hr (.inr ⟨"rcx", by decide, h⟩)
      have hr11 : r ≠ physical "r11" := fun h => hr (.inr ⟨"r11", by decide, h⟩)
      have hrax : r ≠ physical "rax" := fun h => hr (.inl h)
      rw [regs_set, if_neg hr11, regs_set, if_neg hrcx, regs_set, if_neg hrax]
    · intro r hr s
      have hcases : r = physical "rax" ∨ r = physical "rcx" ∨ r = physical "r11" := by
        rcases hr with hr | ⟨d, hd, hr⟩
        · exact .inl hr
        · have hd' : d = "rcx" ∨ d = "r11" := by
            have hmem : d ∈ [Text.ofString "rcx", Text.ofString "r11"] := hd
            simpa using hmem
          rcases hd' with rfl | rfl
          · exact .inr (.inl hr)
          · exact .inr (.inr hr)
      rw [regs_set]
      split
      · simp
      · rw [regs_set]
        split
        · simp
        · rename_i h₁ h₂
          rw [regs_set, if_pos (hcases.resolve_right fun h => h.elim h₂ h₁)]
          simp

end Machine.Executes

theorem Instr.written_push (r : Text) : (Instr.push r).written = [] := rfl

theorem Instr.written_pop (r : Text) : (Instr.pop r).written = [] := rfl

theorem flatMap_written {dests : List Text} (h : is.map Instr.dest? = dests.map some) :
    is.flatMap Instr.written = dests := by
  induction is generalizing dests with
  | nil => simpa using h
  | cons i is ih =>
    cases dests with
    | nil => cases h
    | cons d dests =>
      rw [List.map_cons, List.map_cons, List.cons.injEq] at h
      rw [List.flatMap_cons, Instr.written_of_dest? h.1, ih h.2]
      rfl

/-- A system call whose arguments go to registers that are not lent to it.  Those in use
are kept on the stack meanwhile; the others are lost. -/
theorem Conduct.systemCall {live : List Text} (dests : List Text)
    (h : is.map Instr.dest? = dests.map some)
    (hdests : (∀ d ∈ dests, physical d ≠ physical t.stackPointer ∧
        physical d ≠ physical t.basePointer) ∧
      (∀ d ∈ dests ++ t.trap.written, ∀ s ∈ t.intPool, physical d = physical s →
        ∃ x ∈ touched, physical x = physical s) ∧
      ∀ x ∈ touched, x ∈ t.intPool ∧ ∃ d ∈ dests ++ t.trap.written, physical d = physical x)
    (hlive : ∀ r ∈ live, r ∈ t.intPool ∧ owned r) :
    Conduct t owned touched (live.map .push ++ (is ++ [t.trap]) ++ live.reverse.map .pop) := by
  obtain ⟨hside, hwritten, htouched⟩ := hdests
  have hsp : ∀ r ∈ live, physical r ≠ physical t.stackPointer :=
    fun r hr => (t.physical_intPool r (hlive r hr).1).1
  have hrun := ((Machine.Executes.overwrites h hside).append (.trap t)).bracket live hsp
  -- Pushes and pops overwrite nothing.
  have hpush : (live.map Instr.push).flatMap Instr.written = [] := by simp [Instr.written_push]
  have hpop : (live.reverse.map Instr.pop).flatMap Instr.written = [] := by
    simp [Instr.written_pop]
  have hall : (live.map Instr.push ++ (is ++ [t.trap]) ++ live.reverse.map Instr.pop).flatMap
      Instr.written = dests ++ t.trap.written := by
    rw [List.flatMap_append, List.flatMap_append, List.flatMap_append, hpush, hpop,
      flatMap_written h, List.flatMap_singleton]
    simp
  refine ⟨?_, ?_, fun _ => ⟨_, hrun, ?_, ?_⟩, ?_⟩
  · intro d hd s hs hds
    exact .inr (hwritten d (hall ▸ hd) s hs hds)
  · intro x hx
    rw [hall]
    exact (htouched x hx).2
  · rintro ⟨⟨d, hd, hbd⟩ | hb, -⟩
    · exact absurd hbd.symm (hside d hd).2
    · exact absurd hb (Machine.Executes.basePointer_not_trapped t)
  · intro x hx
    obtain ⟨hxpool, d, hd, hdx⟩ := htouched x hx
    -- A register in use came back from the stack; its owner answers for it.
    by_cases hxlive : x ∈ live
    · exact .inr ⟨x, hxpool, (hlive x hxlive).2, rfl⟩
    · refine .inl ⟨?_, fun s hs hxs => hxlive ?_⟩
      · rcases List.mem_append.mp hd with hd | hd
        · exact .inl ⟨d, hd, hdx.symm⟩
        · exact .inr (.inr ⟨d, hd, hdx.symm⟩)
      · rw [t.physical_injOn x hxpool s (hlive s hs).1 hxs]
        exact hs
  · rintro ⟨x, hx, hxsp⟩
    exact absurd hxsp (t.physical_intPool x (htouched x hx).1).1

/-- Writing a text touches the registers of the pool that it overwrites. -/
theorem Conduct.writeCall (label : Text) (size : Nat) {live : List Text}
    (hlive : ∀ r ∈ live, r ∈ t.intPool ∧ owned r) :
    Conduct t owned t.writeClobbers
      (live.map .push ++ t.writeCall label size ++ live.reverse.map .pop) := by
  cases t with
  | bits16 => exact .systemCall ["ah", "bx", "cx", "dx"] rfl (by decide) hlive
  | bits32 => exact .systemCall ["eax", "ebx", "ecx", "edx"] rfl (by decide) hlive
  | bits64 => exact .systemCall ["rax", "rdi", "rsi", "rdx"] rfl (by decide) hlive

/-- The registers of the pool that ending the process overwrites. -/
def Target.exitClobbers : Target → List Text
  | bits16 => []
  | bits32 => ["ebx"]
  | bits64 => ["rcx", "r11"]

theorem Conduct.exitCall (code : Int) : Conduct t owned t.exitClobbers (t.exitCall code) := by
  have hlive : ∀ r ∈ ([] : List Text), r ∈ t.intPool ∧ owned r := List.forall_mem_nil _
  have hcall : Conduct t owned t.exitClobbers
      (([] : List Text).map .push ++ (t.exitArgs code ++ [t.trap]) ++
        ([] : List Text).reverse.map .pop) := by
    cases t with
    | bits16 => exact .systemCall ["ah", "al"] rfl (by decide) hlive
    | bits32 =>
      refine .systemCall ["eax", "ebx"] ?_ (by decide) hlive
      rw [Target.exitArgs]
      split <;> rfl
    | bits64 => exact .systemCall ["rax", "rdi"] rfl (by decide) hlive
  simpa [Target.exitCall] using hcall

end Assembly
