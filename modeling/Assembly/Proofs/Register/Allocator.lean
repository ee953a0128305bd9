import Assembly.Engine.Allocator
import Assembly.Proofs.Register.File
import Mathlib.Data.List.Nodup
import Mathlib.Data.List.Perm.Subperm

/-!
# The registers in use after any commands

Whatever is asked of a register file, the registers in use of a class are registers of its
pool, and none is in use twice.  So they can be counted: a register of the class is free
exactly as long as fewer are in use than the pool has.

The two classes have nothing to do with each other.  `obeyAll_inUse` says that the registers
in use of a class are those that the commands about this class alone would have left.
-/

namespace Assembly

/-- Whether a command is about a class of registers. -/
def RegisterCommand.concerns : RegisterCommand → RegClass → Bool
  | alloc c, d => c = d
  | free c _, d => c = d
  | reset, _ => true

namespace RegisterFile

variable {f g : RegisterFile} {c d : RegClass} {r : Text} {a : Allocation}

theorem nodup_pool (f : RegisterFile) (c : RegClass) : (f.pool c).Nodup := by
  have hpools : ∀ t : Target, t.intPool.Nodup ∧ t.floatPool.Nodup := by
    intro t
    cases t <;> decide
  cases c with
  | int => exact (hpools f.target).1
  | float => exact (hpools f.target).2

/-! ## The invariant -/

/-- The registers in use of each class are registers of its pool, none of them twice. -/
structure Sound (f : RegisterFile) : Prop where
  nodup : ∀ c, (f.inUse c).Nodup
  mem_pool : ∀ c, ∀ r ∈ f.inUse c, r ∈ f.pool c

namespace Sound

theorem setInUse (h : f.Sound) {regs : List Text} (hnodup : regs.Nodup)
    (hpool : ∀ r ∈ regs, r ∈ f.pool c) : (f.setInUse c regs).Sound := by
  refine ⟨fun d => ?_, fun d r hr => ?_⟩
  · by_cases hd : d = c
    · rwa [hd, inUse_setInUse]
    · rw [inUse_setInUse_of_ne f regs hd]
      exact h.nodup d
  · rw [pool_setInUse]
    by_cases hd : d = c
    · rw [hd, inUse_setInUse] at hr
      exact hd ▸ hpool r hr
    · rw [inUse_setInUse_of_ne f regs hd] at hr
      exact h.mem_pool d r hr

theorem reset (f : RegisterFile) : f.reset.Sound := by
  refine ⟨fun c => ?_, fun c r hr => ?_⟩
  · cases c <;> exact List.nodup_nil
  · cases c <;> cases hr

theorem alloc? (h : f.Sound) (ha : f.alloc? c = some (a, g)) : g.Sound := by
  cases hfree : f.firstFree? c with
  | none => rwa [(alloc?_of_full hfree ha).2]
  | some r =>
    rw [alloc?_of_firstFree? hfree] at ha
    cases ha
    refine h.setInUse ?_ ?_
    · rw [List.nodup_append]
      refine ⟨h.nodup c, List.nodup_singleton r, fun s hs r' hr' hsr => ?_⟩
      rw [List.mem_singleton] at hr'
      exact firstFree?_notMem hfree (hr' ▸ hsr ▸ hs)
    · intro s hs
      rcases List.mem_append.mp hs with hs | hs
      · exact h.mem_pool c s hs
      · exact List.mem_singleton.mp hs ▸ firstFree?_mem_pool hfree

theorem free (h : f.Sound) (c : RegClass) (r : Text) : (f.free c r).Sound :=
  h.setInUse ((h.nodup c).filter _) fun s hs => h.mem_pool c s (List.mem_of_mem_filter hs)

theorem obey (h : f.Sound) (command : RegisterCommand) : (f.obey command).2.Sound := by
  cases command with
  | alloc c =>
    rw [RegisterFile.obey]
    cases ha : f.alloc? c with
    | none => exact h
    | some ag => exact h.alloc? ha
  | free c r => exact h.free c r
  | reset => exact reset f

theorem obeyAll (h : f.Sound) (commands : List RegisterCommand) : (f.obeyAll commands).Sound := by
  induction commands generalizing f with
  | nil => exact h
  | cons command commands ih => exact ih (h.obey command)

/-! ## Counting -/

/-- A register is free as long as fewer are in use than the pool has. -/
theorem firstFree?_isSome_iff (h : f.Sound) :
    (f.firstFree? c).isSome = true ↔ (f.inUse c).length < (f.pool c).length := by
  cases hfree : f.firstFree? c with
  | none =>
    have hall : f.pool c ⊆ f.inUse c := fun r hr => by
      simpa [uses] using uses_of_firstFree?_eq_none hfree hr
    have hle := (List.subperm_of_subset (f.nodup_pool c) hall).length_le
    exact iff_of_false (by simp) (Nat.not_lt.mpr hle)
  | some r =>
    have hnodup : (r :: f.inUse c).Nodup :=
      List.nodup_cons.mpr ⟨firstFree?_notMem hfree, h.nodup c⟩
    have hpool : r :: f.inUse c ⊆ f.pool c :=
      List.cons_subset.mpr ⟨firstFree?_mem_pool hfree, h.mem_pool c⟩
    exact iff_of_true rfl (List.subperm_of_subset hnodup hpool).length_le

theorem free_eq_erase (h : f.Sound) (c : RegClass) (r : Text) :
    f.free c r = f.setInUse c ((f.inUse c).erase r) := by
  rw [RegisterFile.free, (h.nodup c).erase_eq_filter]

end Sound

/-! ## What commands answer -/

/-- The register stands in the pool, is not in use, and all registers in front of it are. -/
def IsFirstFree (f : RegisterFile) (c : RegClass) (r : Text) : Prop :=
  ∃ front back, f.pool c = front ++ r :: back ∧ (∀ s ∈ front, s ∈ f.inUse c) ∧ r ∉ f.inUse c

theorem isFirstFree_of_firstFree? (h : f.firstFree? c = some r) : f.IsFirstFree c r := by
  obtain ⟨hr, front, back, hpool, hfront⟩ := List.find?_eq_some_iff_append.mp h
  refine ⟨front, back, hpool, fun s hs => ?_, firstFree?_notMem h⟩
  simpa [uses] using hfront s hs

theorem obey_alloc_of_firstFree? (h : f.firstFree? c = some r) :
    f.obey (.alloc c) = (.ok (.handed ⟨r, true⟩), f.setInUse c (f.inUse c ++ [r])) := by
  rw [obey, alloc?_of_firstFree? h]

theorem firstFree?_of_obey (h : (f.obey (.alloc c)).1 = .ok (.handed ⟨r, true⟩)) :
    f.firstFree? c = some r := by
  rw [obey] at h
  cases ha : f.alloc? c with
  | none =>
    rw [ha] at h
    cases h
  | some ag =>
    obtain ⟨a, g⟩ := ag
    rw [ha] at h
    cases h
    cases hfree : f.firstFree? c with
    | none => cases (alloc?_of_full hfree ha).1
    | some s =>
      rw [alloc?_of_firstFree? hfree] at ha
      cases ha
      rfl

/-- Without a free register the file stays as it is, and the mode decides the answer. -/
theorem obey_alloc_of_full (h : f.firstFree? c = none) :
    ∃ r, (f.pool c).head? = some r ∧ f.obey (.alloc c) =
      (if f.strict then .error (.poolExhausted c (f.pool c).length) else .ok (.handed ⟨r, false⟩), f) := by
  obtain ⟨r, hr⟩ := Option.isSome_iff_exists.mp (List.isSome_head?.mpr (f.pool_ne_nil c))
  refine ⟨r, hr, ?_⟩
  rw [obey, alloc?, h, hr]
  cases f.strict <;> rfl

/-! ## The classes apart -/

theorem obey_inUse_of_not_concerns {command : RegisterCommand} (h : command.concerns d = false) :
    (f.obey command).2.inUse d = f.inUse d := by
  cases command with
  | alloc c =>
    have hne : d ≠ c := fun hd => by simp [RegisterCommand.concerns, hd] at h
    cases hfree : f.firstFree? c with
    | none =>
      obtain ⟨_, -, hobey⟩ := obey_alloc_of_full hfree
      rw [hobey]
    | some r =>
      rw [obey_alloc_of_firstFree? hfree]
      exact inUse_setInUse_of_ne f _ hne
  | free c r =>
    have hne : d ≠ c := fun hd => by simp [RegisterCommand.concerns, hd] at h
    exact inUse_setInUse_of_ne f _ hne
  | reset => cases h

theorem obey_kind (f : RegisterFile) (command : RegisterCommand) : (f.obey command).2.kind = f.kind := by
  cases command with
  | alloc c =>
    rw [obey]
    cases ha : f.alloc? c with
    | none => rfl
    | some ag => exact kind_alloc? ha
  | free c r => exact kind_setInUse f c _
  | reset => rfl

theorem obeyAll_kind (f : RegisterFile) (commands : List RegisterCommand) :
    (f.obeyAll commands).kind = f.kind := by
  induction commands generalizing f with
  | nil => rfl
  | cons command commands ih => exact (ih _).trans (f.obey_kind command)

theorem pool_of_kind (h : f.kind = g.kind) (c : RegClass) : f.pool c = g.pool c := by
  have htarget : f.target = g.target := congrArg Prod.fst h
  cases c with
  | int => exact congrArg Target.intPool htarget
  | float => exact congrArg Target.floatPool htarget

/-- What a command does to a class depends on nothing but the registers in use of that class. -/
theorem obey_inUse_congr (hkind : f.kind = g.kind) (huse : f.inUse d = g.inUse d)
    (command : RegisterCommand) : (f.obey command).2.inUse d = (g.obey command).2.inUse d := by
  cases hconcerns : command.concerns d with
  | false =>
    rw [obey_inUse_of_not_concerns hconcerns, obey_inUse_of_not_concerns hconcerns]
    exact huse
  | true =>
    cases command with
    | alloc c =>
      obtain rfl : c = d := by simpa [RegisterCommand.concerns] using hconcerns
      have hfree : f.firstFree? c = g.firstFree? c := by
        simp only [firstFree?, uses, huse, pool_of_kind hkind]
      cases hr : g.firstFree? c with
      | none =>
        obtain ⟨_, -, hf⟩ := obey_alloc_of_full (hfree.trans hr)
        obtain ⟨_, -, hg⟩ := obey_alloc_of_full hr
        rw [hf, hg]
        exact huse
      | some r =>
        rw [obey_alloc_of_firstFree? (hfree.trans hr), obey_alloc_of_firstFree? hr,
          inUse_setInUse, inUse_setInUse, huse]
    | free c r =>
      obtain rfl : c = d := by simpa [RegisterCommand.concerns] using hconcerns
      show ((f.setInUse c _).inUse c) = ((g.setInUse c _).inUse c)
      rw [inUse_setInUse, inUse_setInUse, huse]
    | reset => cases d <;> rfl

/-- Commands about the other class may be left out. -/
theorem obeyAll_inUse (hkind : f.kind = g.kind) (huse : f.inUse d = g.inUse d)
    (commands : List RegisterCommand) :
    (f.obeyAll commands).inUse d = (g.obeyAll (commands.filter (·.concerns d))).inUse d := by
  induction commands generalizing f g with
  | nil => exact huse
  | cons command commands ih =>
    cases hconcerns : command.concerns d with
    | false =>
      rw [List.filter_cons_of_neg (by simp [hconcerns])]
      refine ih ((f.obey_kind command).trans hkind) ?_
      rw [obey_inUse_of_not_concerns hconcerns]
      exact huse
    | true =>
      rw [List.filter_cons_of_pos (by simpa using hconcerns)]
      refine ih ?_ (obey_inUse_congr hkind huse command)
      rw [obey_kind, obey_kind, hkind]

/-- **Allocation.**  After any commands to a new file, of either mode, the registers in use of a
class are different registers of its pool.  A command for a register hands out a fresh one
exactly if fewer are in use than the pool has; it is then the first of the pool that is not in
use, it alone joins the registers in use, and taking it back restores the file.  Otherwise
nothing changes, and the answer is a refusal in strict mode and the first register of the pool
in permissive mode.  Taking back a register removes this one and says whether it was in use.
Commands about the other class make no difference. -/
theorem allocation_exact (t : Target) (strict : Bool) (commands : List RegisterCommand)
    (c : RegClass) :
    let new := RegisterFile.new t strict
    let f := new.obeyAll commands
    let asked := f.obey (.alloc c)
    ((f.inUse c).Nodup ∧ ∀ r ∈ f.inUse c, r ∈ new.pool c) ∧
      ((∃ r, asked.1 = .ok (.handed ⟨r, true⟩)) ↔ (f.inUse c).length < (new.pool c).length) ∧
      (∀ r, asked.1 = .ok (.handed ⟨r, true⟩) → f.IsFirstFree c r ∧
        asked.2 = f.setInUse c (f.inUse c ++ [r]) ∧
        asked.2.obey (.free c r) = (.ok (.freed true), f)) ∧
      (¬ (f.inUse c).length < (new.pool c).length → ∃ r, (new.pool c).head? = some r ∧ asked =
        (if strict then .error (.poolExhausted c (new.pool c).length)
          else .ok (.handed ⟨r, false⟩), f)) ∧
      (∀ r, f.obey (.free c r) =
        (.ok (.freed (decide (r ∈ f.inUse c))), f.setInUse c ((f.inUse c).erase r))) ∧
      (∀ d, (f.obey .reset).2.inUse d = []) ∧
      (∀ command : RegisterCommand, command.concerns c = false →
        (f.obey command).2.inUse c = f.inUse c) ∧
      f.inUse c = (new.obeyAll (commands.filter (·.concerns c))).inUse c := by
  intro new f asked
  have hsound : f.Sound := (Sound.reset new).obeyAll commands
  have hkind : f.kind = new.kind := new.obeyAll_kind commands
  have hpool : f.pool c = new.pool c := pool_of_kind hkind c
  have hstrict : f.strict = strict := congrArg Prod.snd hkind
  have hcount : (f.firstFree? c).isSome = true ↔ (f.inUse c).length < (new.pool c).length :=
    hpool ▸ hsound.firstFree?_isSome_iff
  refine ⟨⟨hsound.nodup c, hpool ▸ hsound.mem_pool c⟩, ?_, fun r hr => ?_, fun hfull => ?_,
    fun r => ?_, fun d => by cases d <;> rfl, fun _ => obey_inUse_of_not_concerns,
    obeyAll_inUse rfl rfl commands⟩
  · rw [← hcount, Option.isSome_iff_exists]
    exact exists_congr fun r =>
      ⟨firstFree?_of_obey, fun hr => congrArg Prod.fst (obey_alloc_of_firstFree? hr)⟩
  · have hfree := firstFree?_of_obey hr
    have hafter : asked.2 = _ := congrArg Prod.snd (obey_alloc_of_firstFree? hfree)
    refine ⟨isFirstFree_of_firstFree? hfree, hafter, ?_⟩
    rw [hafter, obey, free_setInUse_append (firstFree?_notMem hfree), uses, inUse_setInUse]
    simp
  · have hnone : f.firstFree? c = none := by
      rwa [← hcount, Option.not_isSome_iff_eq_none] at hfull
    obtain ⟨r, hr, hobey⟩ := obey_alloc_of_full hnone
    exact ⟨r, hpool ▸ hr, by rw [← hpool, ← hstrict]; exact hobey⟩
  · rw [obey, hsound.free_eq_erase, uses, List.contains_eq_mem]

end RegisterFile

end Assembly
