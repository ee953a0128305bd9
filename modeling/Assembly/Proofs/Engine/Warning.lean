import Assembly.Proofs.Engine.Mode

/-!
# Warnings of permissive engines

Where a strict engine refuses by policy, the permissive twin goes on.  It has a warning more in its
log then, unless what was refused is a second local of one name: `warned_iff`.
-/

namespace Assembly

namespace EmitError

theorem isLocalClash_eq_false {x : EmitError} :
    x.isLocalClash = false ↔ ∀ name function, x ≠ duplicateLocal name function := by
  constructor
  · rintro h name function rfl
    cases h
  · intro h
    cases x with
    | duplicateLocal name function => exact absurd rfl (h name function)
    | _ => rfl

end EmitError

namespace Engine

theorem length_warnings_make (e : Engine) (m : Move) :
    (e.make m).warnings.length = e.warnings.length + if m.warns then 1 else 0 := by
  cases h : m.warns with
  | false => rw [(e.make_mode m).2 h]; rfl
  | true =>
    cases m with
    | log level message fields =>
      cases level with
      | debug => cases h
      | warn => simp [make, record, warnings]
    | _ => cases h

/-- A run of moves adds a warning for each of them that warns. -/
theorem length_warnings_makeAll (e : Engine) (ms : List Move) :
    (e.makeAll ms).warnings.length = e.warnings.length + ms.countP Move.warns := by
  induction ms generalizing e with
  | nil => rfl
  | cons m ms ih =>
    rw [makeAll_cons, ih, length_warnings_make, List.countP_cons]
    omega

/-- A strict engine that refuses a request by policy: its twin warns, or goes on in silence
where the name is that of a local. -/
theorem warns_iff_of_refused {e : Engine} (he : e.Strict) {q : Request} {x : EmitError}
    (hx : e.reply q = .error x) (hp : x.isPolicy = true) :
    (∃ k ∈ e.relaxed.movesOf q, k.warns = true) ↔ x.isLocalClash = false := by
  by_cases hq : ∃ f name type, q = .declareLocal f name type
  · obtain ⟨f, name, type, rfl⟩ := hq
    have hmap := Emit.map_apply Reply.value (Emit.declareLocal f name type)
    have hreply : (Emit.declareLocal f name type e).1.map Reply.value = .error x :=
      (congrArg Prod.fst (hmap e)).symm.trans hx
    have herror : (Emit.declareLocal f name type e).1 = .error x := by
      cases hr : (Emit.declareLocal f name type e).1 with
      | ok v =>
        rw [hr] at hreply
        cases hreply
      | error y =>
        rw [hr] at hreply
        cases hreply
        rfl
    have hmoves : e.relaxed.movesOf (.declareLocal f name type) =
        (Emit.declareLocal f name type e.relaxed).2 := congrArg Prod.snd (hmap e.relaxed)
    rw [hmoves]
    obtain ⟨y, hy, -, hwarns⟩ | ⟨hgranted, -⟩ := Emit.declareLocal_relaxes he f name type
    · cases herror.symm.trans hy
      exact hwarns
    · rw [herror, refusedByPolicy, hp] at hgranted
      cases hgranted
  · have hlast : q ≠ .finalize := by
      rintro rfl
      rw [reply, Request.emit, Emit.map_apply, Emit.finalize_run] at hx
      cases hx
    have hann : q.emit.Announces := .request (fun f name type h => hq ⟨f, name, type, h⟩) hlast
    obtain ⟨y, hy, -, hroot, hwarns⟩ | ⟨hgranted, -⟩ := hann e he
    · cases hx.symm.trans hy
      exact iff_of_true hwarns (EmitError.isLocalClash_of_root hroot)
    · rw [show (q.emit e).1 = .error x from hx, refusedByPolicy, hp] at hgranted
      cases hgranted

theorem relaxed_new (t : Target) : (new t true).relaxed = new t false := rfl

/-- No silent fallback, with one exception.  Take a run of a strict engine and the first
request that it refuses by policy.  The permissive engine logs a warning at this request,
unless the failure is that of a second local of one name in a function. -/
theorem warned_iff (t : Target) (pre : List Request) (q : Request) (x : EmitError)
    (hpre : (new t true).abides pre = true) (hx : ((new t true).serveAll pre).reply q = .error x)
    (hp : x.isPolicy = true) :
    ((new t false).serveAll pre).warnings.length <
        (((new t false).serveAll pre).serve q).warnings.length ↔
      ∀ name function, x ≠ .duplicateLocal name function := by
  have hstrict := (strict_new t).serveAll pre
  have htwin : (new t false).serveAll pre = ((new t true).serveAll pre).relaxed := by
    rw [← relaxed_new, serveAll_relaxed (strict_new t) hpre]
  rw [htwin, serve, length_warnings_makeAll, ← EmitError.isLocalClash_eq_false,
    ← warns_iff_of_refused hstrict hx hp, Nat.lt_add_right_iff_pos, List.countP_pos_iff]

/-- A function with a local. -/
def oneLocal : List Request := [.beginFunction "f" [], .declareLocal ⟨0, "f"⟩ "x" "int32"]

/-- A permissive engine warns about an unknown type, and has no word for a second local. -/
theorem warned_iff_oneLocal :
    ((new .bits64 false).serveAll oneLocal).warnings.length <
        (((new .bits64 false).serveAll oneLocal).serve
          (.declareLocal ⟨0, "f"⟩ "y" "blob")).warnings.length ∧
      ¬ ((new .bits64 false).serveAll oneLocal).warnings.length <
        (((new .bits64 false).serveAll oneLocal).serve
          (.declareLocal ⟨0, "f"⟩ "x" "int32")).warnings.length := by
  have hpre : (new .bits64 true).abides oneLocal = true := by decide +kernel
  have htype : ((new .bits64 true).serveAll oneLocal).reply (.declareLocal ⟨0, "f"⟩ "y" "blob") =
      .error (.unknownType "blob") := by rfl
  have hname : ((new .bits64 true).serveAll oneLocal).reply (.declareLocal ⟨0, "f"⟩ "x" "int32") =
      .error (.duplicateLocal "x" "f") := by rfl
  constructor
  · refine (warned_iff .bits64 oneLocal _ _ hpre htype rfl).mpr fun name function h => ?_
    cases h
  · intro hlt
    exact (warned_iff .bits64 oneLocal _ _ hpre hname rfl).mp hlt "x" "f" rfl

end Engine

end Assembly
