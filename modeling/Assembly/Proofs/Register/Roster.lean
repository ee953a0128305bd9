import Assembly.Proofs.Register.File
import Assembly.Value
import Mathlib.Data.List.Nodup

/-!
# Rosters

A roster is a list of register handles.  `f.HeldBy hs` says that the registers in use are
exactly the ones that the handles name, class by class and in the order in which they were
handed out, and none twice.  Handing out a register puts its handle at the end; taking one
back removes the handle that names it.
-/

namespace Assembly

def Value.regClass (v : Value) : RegClass := TypePolicy.regClass v.type

namespace RegisterFile

def ofClass (c : RegClass) (hs : List Value) : List Value := hs.filter (·.regClass = c)

structure HeldBy (f : RegisterFile) (hs : List Value) : Prop where
  registers : ∀ v ∈ hs, v.isRegister
  inUse : ∀ c, f.inUse c = (ofClass c hs).map (·.name)
  nodup : ∀ c, (f.inUse c).Nodup

namespace HeldBy

variable {f : RegisterFile} {hs : List Value} {u v : Value}

theorem reset (f : RegisterFile) : f.reset.HeldBy [] := by
  refine ⟨fun v hv => (by cases hv), fun c => ?_, fun c => ?_⟩
  · cases c <;> rfl
  · cases c <;> exact List.nodup_nil

/-- Two handles of a class that name the same register are the same handle. -/
theorem eq_of_name (h : f.HeldBy hs) (hu : u ∈ hs) (hv : v ∈ hs) (hc : u.regClass = v.regClass)
    (hn : u.name = v.name) : u = v := by
  have hnodup := h.nodup v.regClass
  rw [h.inUse] at hnodup
  exact List.inj_on_of_nodup_map hnodup (List.mem_filter.mpr ⟨hu, by simpa using hc⟩)
    (List.mem_filter.mpr ⟨hv, by simp⟩) hn

theorem nodup_handles (h : f.HeldBy hs) : hs.Nodup := by
  rw [List.nodup_iff_count_le_one]
  intro v
  have hnodup := h.nodup v.regClass
  rw [h.inUse] at hnodup
  have hcount : (ofClass v.regClass hs).count v = hs.count v := List.count_filter (by simp)
  rw [← hcount]
  exact List.nodup_iff_count_le_one.mp hnodup.of_map v

theorem acquire (h : f.HeldBy hs) (hv : v.isRegister) (hfree : f.firstFree? v.regClass = some v.name) :
    (f.setInUse v.regClass (f.inUse v.regClass ++ [v.name])).HeldBy (hs ++ [v]) := by
  refine ⟨?_, fun c => ?_, fun c => ?_⟩
  · intro u hu
    rcases List.mem_append.mp hu with hu | hu
    · exact h.registers u hu
    · rw [List.mem_singleton.mp hu]; exact hv
  · by_cases hc : c = v.regClass
    · subst hc
      rw [inUse_setInUse, h.inUse]
      simp [ofClass]
    · rw [inUse_setInUse_of_ne f _ hc, h.inUse]
      simp [ofClass, Ne.symm hc]
  · by_cases hc : c = v.regClass
    · subst hc
      rw [inUse_setInUse, List.nodup_append]
      refine ⟨h.nodup _, List.nodup_singleton _, ?_⟩
      intro r hr s hs hrs
      rw [List.mem_singleton] at hs
      exact firstFree?_notMem hfree (hs ▸ hrs ▸ hr)
    · rw [inUse_setInUse_of_ne f _ hc]
      exact h.nodup c

/-- The roster without the handle of a register. -/
def without (c : RegClass) (r : Text) (hs : List Value) : List Value :=
  hs.filter fun v => !(v.regClass = c ∧ v.name = r)

theorem free (h : f.HeldBy hs) (c : RegClass) (r : Text) : (f.free c r).HeldBy (without c r hs) := by
  refine ⟨fun v hv => h.registers v (List.mem_of_mem_filter hv), fun d => ?_, fun d => ?_⟩
  -- In its own class the register goes; no handle of another class is meant by its name.
  · by_cases hd : d = c
    · subst hd
      rw [RegisterFile.free, inUse_setInUse, h.inUse, List.filter_map, ofClass, ofClass, without,
        List.filter_filter, List.filter_filter]
      congr 1
      refine List.filter_congr fun v _ => ?_
      rw [Bool.eq_iff_iff]
      by_cases hv : v.regClass = d <;> simp [hv]
    · rw [RegisterFile.free, inUse_setInUse_of_ne f _ hd, h.inUse, ofClass, ofClass, without,
        List.filter_filter]
      congr 1
      refine List.filter_congr fun v _ => ?_
      by_cases hv : v.regClass = d
      · simp [hv, hd]
      · simp [hv]
  · by_cases hd : d = c
    · subst hd
      rw [RegisterFile.free, inUse_setInUse]
      exact (h.nodup d).filter _
    · rw [RegisterFile.free, inUse_setInUse_of_ne f _ hd]
      exact h.nodup d

theorem without_eq_erase (h : f.HeldBy hs) (hv : v ∈ hs) :
    without v.regClass v.name hs = hs.erase v := by
  rw [h.nodup_handles.erase_eq_filter, without]
  refine List.filter_congr fun u hu => ?_
  by_cases huv : u = v
  · simp [huv]
  · have hne : ¬ (u.regClass = v.regClass ∧ u.name = v.name) :=
      fun hcn => huv (h.eq_of_name hu hv hcn.1 hcn.2)
    simp [hne, huv]

end HeldBy

end RegisterFile

end Assembly
